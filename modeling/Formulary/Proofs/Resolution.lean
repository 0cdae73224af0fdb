import Formulary.Proofs.Generated

/-!
# Names and values

There are three ways to ask whether the names of a formula are bound. One goes through the tokens,
and into the groups as they come; one lists the names first, groups included, and looks each of them
up; and evaluation looks a name up when its token is reached, among operators that can fail as well.

The first asks the provider of each group about the names in it, and the second asks one provider
about all of them. They come to the same because a formula shares its provider with its groups.
Evaluation asks for less when it fails: it gets no further than the
first token that fails. But it passes through the names in the order in which they are listed,
groups being evaluated where they stand, so that the name that it fails for, if it fails for a name,
is the first one without a binding. And where nothing fails nothing was left out: each token at each
depth has been executed.

## Main results

* `allResolved_eq` — the ways to check names before evaluation agree
* `find?_of_execute` — execution that fails for a name fails for the first one without a binding
* `exists_execute_of_mem` — where execution succeeds every token has been executed
* `notMem_of_within` — a formula with a value has no operator without a meaning, at any depth
* `Formula.Made.isResolved_eq_and_value` — the checks of a formula agree with each other and with
  its evaluation
-/

namespace Formulary

variable {lib : MathLibrary} {env : Environment} {provider : Provider}

/-! ### Checking names -/

mutual

theorem Token.isResolved_eq (t : Token) (hshares : SharesProvider env.provider [t]) :
    t.isResolved env = t.references.all fun name => (env name).isSome := by
  match t with
  | .constant c => simp [Token.isResolved, Token.references]
  | .operator op => simp [Token.isResolved, Token.references]
  | .reference name => simp [Token.isResolved, Token.references]
  | .group name provider source tokens program =>
    obtain ⟨rfl, -, hprogram⟩ := sharesProvider_group_iff.mp hshares
    rw [Token.isResolved, Token.references, Environment.asking_provider]
    exact allResolved_eq_all program hprogram

/-- Going through the tokens and into the groups is going through the names. -/
theorem allResolved_eq_all (tokens : List Token) (hshares : SharesProvider env.provider tokens) :
    allResolved env tokens = (references tokens).all fun name => (env name).isSome := by
  match tokens with
  | [] => simp [allResolved]
  | t :: rest =>
    obtain ⟨ht, hrest⟩ := sharesProvider_cons_iff.mp hshares
    rw [allResolved, references_cons, List.all_append, t.isResolved_eq ht,
      allResolved_eq_all rest hrest]

end

/-- **Checks agree.** All names are bound, token by token, if no name is without a binding. -/
theorem allResolved_eq {tokens : List Token} (hshares : SharesProvider env.provider tokens) :
    allResolved env tokens = (unresolved env tokens).isEmpty := by
  rw [allResolved_eq_all tokens hshares, Bool.eq_iff_iff, List.all_eq_true, List.isEmpty_iff,
    unresolved, List.filter_eq_nil_iff]
  refine forall₂_congr fun name _ => ?_
  cases env name <;> simp

/-! ### Names in evaluation -/

/-- Operators do not look names up. -/
theorem applyOperator_ne_unresolved (op : Operator) (stack : List Float) (name : String) :
    applyOperator lib op stack ≠ .error (.unresolved name) := by
  intro h
  rcases eq_or_exists_of_applyOperator_error h with heq | ⟨x, hx⟩ | ⟨lhs, rhs, hv⟩
  · cases heq
  · rw [applyUnary] at hx
    split at hx
    · cases hx
    · dsimp only at hx
      split at hx <;> cases hx
  · unfold applyBinary at hv
    split at hv
    case h_4 => split at hv <;> cases hv
    case h_5 =>
      rw [applyPower] at hv
      split at hv <;> cases hv
    all_goals cases hv

/-- A value is missing for a name only where execution fails for it. -/
theorem valueOf_eq_unresolved_iff {program : List Token} {name : String} :
    valueOf lib env program = .error (.unresolved name) ↔
      execute lib env program [] = .error (.unresolved name) := by
  rw [valueOf]
  cases execute lib env program [] with
  | error e => simp
  | ok left =>
    rcases left with _ | ⟨v, _ | ⟨w, rest⟩⟩ <;> simp [onlyValue]

mutual

theorem Token.find?_of_execute (t : Token) (hshares : SharesProvider env.provider [t])
    {stack : List Float} {name : String} (h : t.execute lib env stack = .error (.unresolved name)) :
    t.references.find? (fun name => (env name).isNone) = some name := by
  match t with
  | .constant c =>
    rw [Token.execute] at h
    cases h
  | .operator op =>
    rw [Token.execute] at h
    exact absurd h (applyOperator_ne_unresolved op stack name)
  | .reference name' =>
    rw [Token.execute, map_eq_error_iff, lookUp] at h
    cases hname : env name' with
    | some v =>
      rw [hname] at h
      cases h
    | none =>
      rw [hname] at h
      cases h
      simp [Token.references, hname]
  | .group _ _ _ _ [] =>
    rw [Token.execute] at h
    cases h
  | .group _ _ _ _ (t :: rest) =>
    obtain ⟨rfl, -, hprogram⟩ := sharesProvider_group_iff.mp hshares
    rw [Token.execute_group (List.cons_ne_nil t rest), map_eq_error_iff,
      Environment.asking_provider] at h
    rw [Token.references]
    exact find?_of_execute (t :: rest) hprogram (valueOf_eq_unresolved_iff.mp h)

/-- **The first name without a binding.** Execution that fails for a name fails for the first name
that is not bound, in the order in which they are listed. -/
theorem find?_of_execute (program : List Token) (hshares : SharesProvider env.provider program)
    {stack : List Float} {name : String}
    (h : execute lib env program stack = .error (.unresolved name)) :
    (references program).find? (fun name => (env name).isNone) = some name := by
  match program with
  | [] =>
    rw [execute_nil] at h
    cases h
  | t :: rest =>
    obtain ⟨hsharesFirst, hsharesRest⟩ := sharesProvider_cons_iff.mp hshares
    rw [references_cons, List.find?_append]
    rcases execute_cons_eq_error_iff.mp h with ht | ⟨between, ht, hrest⟩
    · rw [t.find?_of_execute hsharesFirst ht, Option.some_or]
    · -- The names of a token that has been executed are all bound.
      have hbound : t.references.find? (fun name => (env name).isNone) = none := by
        rw [List.find?_eq_none]
        intro n hn
        rw [Option.isNone_iff_eq_none, ← ne_eq, ← Option.isSome_iff_ne_none]
        exact t.isSome_of_execute hsharesFirst ht n hn
      rw [hbound, Option.none_or]
      exact find?_of_execute rest hsharesRest hrest

end

/-- A value is missing for a name only if it is the first one without a binding. -/
theorem head?_unresolved_of_valueOf {program : List Token}
    (hshares : SharesProvider env.provider program) {name : String}
    (h : valueOf lib env program = .error (.unresolved name)) :
    (unresolved env program).head? = some name := by
  rw [unresolved, List.head?_filter]
  exact find?_of_execute program hshares (valueOf_eq_unresolved_iff.mp h)

/-! ### Nothing is left out -/

/-- Where a program is executed without a failure each of its tokens has been executed. -/
theorem exists_execute_of_mem {program : List Token} {stack left : List Float}
    (h : execute lib env program stack = .ok left) {t : Token} (ht : t ∈ program) :
    ∃ before after, t.execute lib env before = .ok after := by
  obtain ⟨init, rest, rfl⟩ := List.append_of_mem ht
  obtain ⟨before, -, hrest⟩ := execute_append_eq_ok_iff.mp h
  obtain ⟨after, htoken, -⟩ := execute_cons_eq_ok_iff.mp hrest
  exact ⟨before, after, htoken⟩

/-- An arrow and three functions have no meaning, whatever stands around them. -/
theorem notMem_of_applyOperator {op : Operator} {stack left : List Float}
    (h : applyOperator lib op stack = .ok left) :
    op.symbol ∉ [Symbol.arrow, .sinh, .cosh, .tanh] := by
  intro hmem
  obtain ⟨v, rest, -, ⟨x, -, hv⟩ | ⟨lhs, rhs, -, hv⟩⟩ := exists_of_applyOperator h
  · rw [applyUnary] at hv
    generalize op.symbol = symbol at hmem hv
    simp only [List.mem_cons, List.not_mem_nil, or_false] at hmem
    rcases hmem with rfl | rfl | rfl | rfl <;> cases hv
  · generalize op.symbol = symbol at hmem hv
    simp only [List.mem_cons, List.not_mem_nil, or_false] at hmem
    rcases hmem with rfl | rfl | rfl | rfl <;> cases hv

/-- **Nothing is skipped.** A text whose program has a value has no operator without a meaning, at
any depth. -/
theorem notMem_of_within {source : String} {p : Parsed} (h : parse provider source = .ok p)
    {v : Float} (hv : valueOf lib env p.program = .ok v) {tokens : List Token}
    (hw : Within tokens p.tokens) {op : Operator} (hop : .operator op ∈ tokens) :
    op.symbol ∉ [Symbol.arrow, .sinh, .cosh, .tanh] := by
  generalize hp : p.tokens = outer at hw
  induction hw generalizing env source p v with
  | self =>
    subst hp
    obtain ⟨before, after, hexecute⟩ := exists_execute_of_mem (valueOf_eq_ok_iff.mp hv)
      ((program_perm_tokens h).symm.subset hop)
    rw [Token.execute] at hexecute
    exact notMem_of_applyOperator hexecute
  | @group _ name _ inner written program hmem _ ih =>
    subst hp
    obtain ⟨before, after, hexecute⟩ := exists_execute_of_mem (valueOf_eq_ok_iff.mp hv)
      ((program_perm_tokens h).symm.subset hmem)
    have hinner : parse provider inner = .ok ⟨written, program⟩ := (parse_of_group_mem h hmem).2.2
    obtain ⟨w, hw, -⟩ := Token.exists_valueOf_of_execute_group hexecute
    exact ih hinner hw rfl

/-! ### Formulas -/

/-- **Checks agree with each other and with evaluation.** The names of a formula are all bound, when
they are looked up token by token or listed first, exactly when no name that it refers to is without
a binding. If it has been generated, evaluation can fail for the first name without a binding only,
and not at all for a name if all are bound; and it has a value only if all are bound and there is no
operator without a meaning in it, at any depth. -/
theorem Formula.Made.isResolved_eq_and_value {f : Formula} (hf : f.Made) :
    (∀ bindings, f.isResolved bindings = f.validate bindings ∧
      f.validate bindings = (f.unresolved bindings).isEmpty ∧
      f.unresolved bindings
        = f.references.filter fun name => (bindings f.provider name).isNone) ∧
    (f.program ≠ [] → ∀ lib bindings,
      (∀ name, f.value lib bindings = .error (.unresolved name) →
        (f.unresolved bindings).head? = some name) ∧
      (f.isResolved bindings = true →
        ∀ name, f.value lib bindings ≠ .error (.unresolved name)) ∧
      ∀ v, f.value lib bindings = .ok v → f.isResolved bindings = true ∧
        ∀ tokens, Within tokens f.tokens → ∀ op, .operator op ∈ tokens →
          op.symbol ∉ [Symbol.arrow, .sinh, .cosh, .tanh]) := by
  have hshares := hf.sharesProvider.program
  have hchecks : ∀ bindings, f.isResolved bindings = (f.unresolved bindings).isEmpty :=
    fun _ => allResolved_eq hshares
  refine ⟨fun bindings => ⟨hchecks bindings, rfl, rfl⟩, fun hne lib bindings => ?_⟩
  have hgenerated : f.IsGenerated := hf.isGenerated_or_eq_nil.resolve_right hne
  have hvalue := hgenerated.value_eq lib bindings
  have hfirst : ∀ name, f.value lib bindings = .error (.unresolved name) →
      (f.unresolved bindings).head? = some name := by
    intro name h
    rw [hvalue] at h
    exact head?_unresolved_of_valueOf hshares h
  refine ⟨hfirst, ?_, ?_⟩
  · intro hresolved name h
    rw [hchecks, List.isEmpty_iff] at hresolved
    have hhead := hfirst name h
    rw [hresolved] at hhead
    cases hhead
  · intro v h
    rw [hvalue] at h
    refine ⟨?_, fun tokens hw op hop => notMem_of_within hgenerated h hw hop⟩
    rw [hchecks, List.isEmpty_iff]
    exact unresolved_eq_nil_of_valueOf hshares h

/-- In `-(b)+a` the name in the group is the first one that has to be bound, and both have to be for
there to be a value. -/
theorem Formula.Made.isResolved_eq_and_value_group :
    ∃ f : Formula, f.Made ∧ f.source = "-(b)+a" ∧
      f.value .system (fun _ _ => none) = .error (.unresolved "b") ∧
      (f.unresolved fun _ _ => none).head? = some "b" ∧
      f.value .system (fun _ _ => some 1.0) = .ok 0.0 ∧
      f.isResolved (fun _ _ => some 1.0) = true := by
  have hb : parse .sole "b" = .ok ⟨[.reference "b"], [.reference "b"]⟩ :=
    parse_name (show Text.visible "b" = ['b'] by decide) rfl (by simp) (by decide)
  let a : Name := ⟨'a', [], rfl, by simp, by decide⟩
  have hlexes : Lexes true (Symbol.subtract.text.toList ++
      ('(' :: ['b'] ++ [')'] ++ (Symbol.add.text.toList ++ (a.text ++ []))))
      [.operator (.unary .subtract), .group "b", .operator (.binary .add), .reference "a"] :=
    .cons (.sign rfl (.inr rfl)) (.cons (.group rfl (by simp)) (.cons
      (.binary rfl (by rintro ⟨⟩) (by rintro _ ⟨⟩; rfl)) (.cons (.reference a rfl) (.nil _))))
  let group : Token := .group "b" .sole "b" [.reference "b"] [.reference "b"]
  let f : Formula := ⟨"f", .sole, "-(b)+a",
    [.operator (.unary .subtract), group, .operator (.binary .add), .reference "a"],
    [group, .operator (.unary .subtract), .reference "a", .operator (.binary .add)], none⟩
  have hparse : parse .sole "-(b)+a" = .ok ⟨f.tokens, f.program⟩ := parse_of_lexes hlexes
    (.cons rfl (.cons (Lexeme.token_group hb) (.cons rfl (.cons rfl .nil)))) rfl
  have hgenerated : f.IsGenerated := hparse
  have hmade : f.Made := .of_parse "f" hgenerated
  obtain ⟨-, hvalues⟩ := hmade.isResolved_eq_and_value
  have hvalues := hvalues hgenerated.program_ne_nil .system
  have hfails : f.value .system (fun _ _ => none) = .error (.unresolved "b") := by
    rw [hgenerated.value_eq]
    rfl
  have hvalue : f.value .system (fun _ _ => some 1.0) = .ok 0.0 := by
    rw [hgenerated.value_eq]
    rfl
  exact ⟨f, hmade, rfl, hfails, (hvalues _).1 "b" hfails, hvalue, ((hvalues _).2.2 0.0 hvalue).1⟩

end Formulary
