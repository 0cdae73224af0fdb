import Formulary.Proofs.Generated

/-!
# How generated formulas can fail

Execution checks at each operator that its operands are there, and at the end that one value is
left. Neither check ever fails for a text that parses: the number of values is known beforehand, and
it was counted when the text was parsed. What can fail is what depends on the values, and the few
symbols that have no meaning where they can be written.

## Main definitions

* `EvalError.IsPossible` — the failures that are left
* `Succeeds` — outcomes of a given sort, or with a failure that is possible
* `Formula.IsWellShaped` — formulas whose shape is no reason to fail

## Main results

* `succeeds_execute` — execution leaves as many values as were counted
* `succeeds_of_parse` — the value of a text that parses
* `isWellShaped_of_generate` — generated formulas, and the groups in them at any depth, can be
  classified and do not fail for their shape
-/

namespace Formulary

variable {provider : Provider}

/-- The failures that a text that parses can have: a name that is not bound, operands for which an
operator has no value, and symbols that have no meaning where they can be written. -/
def EvalError.IsPossible : EvalError → Prop
  | unresolved _ | divisionByZero | domain _ _ => True
  | unsupported symbol arity =>
    (symbol, arity) ∈
      [(Symbol.sinh, Arity.unary), (.cosh, .unary), (.tanh, .unary), (.arrow, .binary)]
  | notGenerated _ | underflow _ _ _ | leftover _ | malformed _ | cycle _ => False

/-- Whether an outcome is of the given sort, or a failure that is possible. -/
def Succeeds {α : Type} (sort : α → Prop) : Except EvalError α → Prop
  | .ok a => sort a
  | .error e => e.IsPossible

theorem Succeeds.map {α β : Type} {sort : α → Prop} {sort' : β → Prop} {f : α → β}
    {outcome : Except EvalError α} (h : Succeeds sort outcome)
    (hf : ∀ a, sort a → sort' (f a)) : Succeeds sort' (outcome.map f) := by
  cases outcome with
  | ok a => exact hf a h
  | error e => exact h

variable (lib : MathLibrary)

/-! ### Operators -/

/-- A sign has a meaning, and so has every function but three. -/
theorem isPossible_of_unaryFunction_eq_none {symbol : Symbol} (h : unaryFunction lib symbol = none)
    (hleading : symbol.IsLeading) : (EvalError.unsupported symbol .unary).IsPossible := by
  rcases hleading with rfl | rfl | hfunction
  · cases h
  · cases h
  · cases symbol with
    | sinh | cosh | tanh => simp [EvalError.IsPossible]
    | add | subtract | multiply | divide | power | equal | notEqual | greater | greaterEqual | less
    | lessEqual | arrow => cases hfunction
    | _ => cases h

theorem succeeds_applyUnary {symbol : Symbol} (h : symbol.IsLeading) (x : Float) :
    Succeeds (fun _ => True) (applyUnary lib symbol x) := by
  rw [applyUnary]
  split
  · rename_i hnone
    exact isPossible_of_unaryFunction_eq_none lib hnone h
  · dsimp only
    split <;> trivial

theorem succeeds_applyBinary {symbol : Symbol} (h : symbol.isFunction = false) (lhs rhs : Float) :
    Succeeds (fun _ => True) (applyBinary lib symbol lhs rhs) := by
  cases symbol with
  | divide =>
    rw [applyBinary]
    split <;> trivial
  | power =>
    rw [applyBinary, applyPower]
    split <;> trivial
  | arrow => simp [applyBinary, Succeeds, EvalError.IsPossible]
  | add | subtract | multiply | equal | notEqual | greater | greaterEqual | less | lessEqual =>
    trivial
  | _ => cases h

/-- An operator that finds its operands puts one value in their place. -/
theorem succeeds_applyOperator {op : Operator} (hop : op.IsWritable) {stack : List Float}
    (h : op.arity.count ≤ stack.length) :
    Succeeds (fun left => left.length = stack.length - op.arity.count + 1)
      (applyOperator lib op stack) := by
  obtain ⟨symbol, arity⟩ := op
  cases arity with
  | unary =>
    obtain ⟨x, rest, rfl⟩ := List.exists_cons_of_length_pos h
    exact (succeeds_applyUnary lib hop x).map fun _ _ => rfl
  | binary =>
    match stack, h with
    | rhs :: lhs :: rest, _ => exact (succeeds_applyBinary lib hop lhs rhs).map fun _ _ => rfl

/-! ### Programs -/

variable (env : Environment)

/-- Whether an operand has a value, or fails for a reason that is possible. -/
def Token.IsSound : Token → Prop
  | .operator op => op.IsWritable
  | .group _ provider _ _ program =>
    program ≠ [] ∧ Succeeds (fun _ => True) (valueOf lib (env.asking provider) program)
  | _ => True

variable {lib env}

theorem succeeds_execute_operand {t : Token} (ht : t.IsSound lib env)
    (hoperand : t.isOperand = true) (stack : List Float) :
    Succeeds (fun left => left.length = stack.length + 1) (t.execute lib env stack) := by
  cases t with
  | operator op => cases hoperand
  | constant c =>
    rw [Token.execute]
    rfl
  | reference name =>
    rw [Token.execute, lookUp]
    cases env name with
    | none => trivial
    | some v => rfl
  | group name provider source tokens program =>
    obtain ⟨hne, hvalue⟩ := ht
    rw [Token.execute_group hne]
    exact hvalue.map fun _ _ => rfl

/-- **Values are counted.** Execution leaves as many values as are counted beforehand. -/
theorem succeeds_execute {program : List Token} (hsound : ∀ t ∈ program, t.IsSound lib env)
    {stack : List Float} {depth : Nat} (h : depthAfter stack.length program = .ok depth) :
    Succeeds (fun left => left.length = depth) (execute lib env program stack) := by
  induction program generalizing stack with
  | nil =>
    cases h
    rw [execute_nil]
    rfl
  | cons t rest ih =>
    obtain ⟨ht, hrest⟩ := List.forall_mem_cons.mp hsound
    -- The token leaves the number of values that the rest is counted from.
    have key : ∀ count, depthAfter count rest = .ok depth →
        Succeeds (fun left => left.length = count) (t.execute lib env stack) →
        Succeeds (fun left => left.length = depth) (execute lib env (t :: rest) stack) := by
      intro count hcount hexecute
      rw [execute_cons]
      cases hstack : t.execute lib env stack with
      | error e =>
        rw [hstack] at hexecute
        exact hexecute
      | ok left =>
        rw [hstack] at hexecute
        obtain rfl : left.length = count := hexecute
        exact ih hrest hcount
    rcases t.isOperand_or_eq_operator with hoperand | ⟨op, rfl⟩
    · rw [depthAfter_cons_operand hoperand] at h
      exact key _ h (succeeds_execute_operand ht hoperand stack)
    · rw [depthAfter] at h
      split at h
      · cases h
      · rename_i hfound
        refine key _ h ?_
        rw [Token.execute]
        exact succeeds_applyOperator lib ht (Nat.not_lt.mp hfound)

theorem succeeds_valueOf {program : List Token} (hsound : ∀ t ∈ program, t.IsSound lib env)
    (h : checkShape program = .ok ()) : Succeeds (fun _ => True) (valueOf lib env program) := by
  have hexecute : Succeeds (fun left => left.length = 1) (execute lib env program []) :=
    succeeds_execute hsound (depthAfter_of_checkShape h).2
  rw [valueOf]
  cases hprogram : execute lib env program [] with
  | error e =>
    rw [hprogram] at hexecute
    exact hexecute
  | ok left =>
    rw [hprogram] at hexecute
    obtain ⟨v, rfl⟩ := List.length_eq_one_iff.mp hexecute
    trivial

/-! ### Texts -/

/-- A text that parses has a value, or fails for a reason that is possible. -/
theorem succeeds_of_parse (lib : MathLibrary) (env : Environment) {source : String} {p : Parsed}
    (h : parse provider source = .ok p) : Succeeds (fun _ => True) (valueOf lib env p.program) := by
  refine parse_induction
    (motive := fun _ p => ∀ env, Succeeds (fun _ => True) (valueOf lib env p.program))
    (fun {source p} h ih env => ?_) h env
  refine succeeds_valueOf (fun t ht => ?_) (checkShape_of_parse h)
  have htoken : t ∈ p.tokens := (program_perm_tokens h).subset ht
  cases t with
  | operator op => exact isWritable_of_mem h htoken
  | group name provider inner written program =>
    have hgroup := (parse_of_group_mem h htoken).2.2
    exact ⟨program_ne_nil_of_parse hgroup, ih htoken _⟩
  | constant c => trivial
  | reference name => trivial

/-! ### Formulas -/

/-- A formula whose shape is no reason to fail. -/
structure Formula.IsWellShaped (f : Formula) : Prop where
  /-- Its program has the tokens of its text, in another order. -/
  perm : f.program.Perm f.tokens
  /-- It gives a number or a truth value. -/
  classified : ∃ comparison, f.isComparison = .ok comparison
  /-- It has a value, or fails for a reason that is possible. -/
  valued : ∀ lib bindings, (∃ v, f.value lib bindings = .ok v) ∨
    ∃ e, f.value lib bindings = .error e ∧ e.IsPossible

theorem Formula.IsGenerated.isWellShaped {f : Formula} (hf : f.IsGenerated) :
    f.IsWellShaped where
  perm := program_perm_tokens hf
  classified := hf.exists_isComparison
  valued lib bindings := by
    have hvalue := succeeds_of_parse lib (f.environment bindings) hf
    rw [hf.value_eq]
    cases h : valueOf lib (f.environment bindings) f.program with
    | ok v => exact .inl ⟨v, rfl⟩
    | error e =>
      rw [h] at hvalue
      exact .inr ⟨e, rfl, hvalue⟩

/-- **Formulas do not fail for their shape.** A formula that has been generated can be classified,
and where it has no value the values are the reason, or a symbol without a meaning. The same is true
of the groups in it, at any depth. -/
theorem isWellShaped_of_generate {f g : Formula} (h : f.generate = (g, .ok ())) :
    g.IsWellShaped ∧
      ∀ tokens, Within tokens g.tokens → ∀ inner : Formula, inner.toToken ∈ tokens →
        inner.IsWellShaped := by
  have hg := Formula.isGenerated_of_generate h
  refine ⟨hg.isWellShaped, fun tokens hwithin inner hinner => ?_⟩
  obtain ⟨source, program, hparse⟩ := exists_parse_of_within hg hwithin
  exact (isGenerated_of_toToken_mem hparse hinner).isWellShaped

/-- A function without a meaning in a group: `(tanh(x))` can be classified, and so can its groups,
and where `x` has a value they fail for the function. -/
theorem isWellShaped_group_of_tanh :
    ∃ g inner : Formula, (Formula.ofText "f" .sole "(tanh(x))").generate = (g, .ok ()) ∧
      inner.toToken ∈ g.tokens ∧ g.IsWellShaped ∧ inner.IsWellShaped ∧
      ∀ lib, inner.value lib (fun _ _ => some 1.0) = .error (.unsupported .tanh .unary) := by
  have hx : parse .sole "x" = .ok ⟨[.reference "x"], [.reference "x"]⟩ :=
    parse_name (show Text.visible "x" = ['x'] by decide) rfl (by simp) (by decide)
  have hinner : lexemesOf "tanh(x)" = ⟨[.operator (.unary .tanh), .group "x"], none⟩ := by
    have hlexes : Lexes true (Symbol.tanh.text.toList ++ ('(' :: ['x'] ++ [')'] ++ []))
        [.operator (.unary .tanh), .group "x"] :=
      .cons (.function rfl rfl) (.cons (.group rfl (by simp)) (.nil _))
    exact lexemesOf_eq_iff_lexes.mpr hlexes
  have houter : lexemesOf "(tanh(x))" = ⟨[.group "tanh(x)"], none⟩ := by
    have hlexes : Lexes true ('(' :: "tanh(x)".toList ++ [')'] ++ []) [.group "tanh(x)"] :=
      .cons (.group rfl (by decide)) (.nil _)
    exact lexemesOf_eq_iff_lexes.mpr hlexes
  have htanh := parse_of_lexemesOf hinner (.cons rfl (.cons (Lexeme.token_group hx) .nil)) rfl
  have hparse := parse_of_lexemesOf houter (.cons (Lexeme.token_group htanh) .nil) rfl
  have hgenerate := Formula.generate_of_parse (f := .ofText "f" .sole "(tanh(x))") hparse
  obtain ⟨hg, hnested⟩ := isWellShaped_of_generate hgenerate
  refine ⟨_, ⟨"tanh(x)", .sole, "tanh(x)", _, _, none⟩, hgenerate, List.mem_singleton_self _, hg,
    hnested _ (.self _) _ (List.mem_singleton_self _), fun lib => rfl⟩

end Formulary
