import Formulary.Formula
import Formulary.Proofs.Providers

/-!
# What a program needs

A program is executed in an environment, but all that it takes from there are the values of the
names that it refers to, those inside groups included, as long as its groups ask the provider that
it asks itself. It asks for every one of them, since nothing is skipped: when there is a value, all
of these names are bound.

A program of the right shape also tells what it gives. If it is longer than one operand it ends with
an operator, for an operand in the last place would be left on the stack beside what is below it.

## Main results

* `execute_append_eq_ok_iff` — a program is executed piece by piece
* `valueOf_congr` — a value depends only on the names that are referred to
* `unresolved_eq_nil_of_valueOf` — where there is a value, these names are bound
* `exists_isComparison` — a program of the right shape can be classified
* `isComparison_eq_ok_true_iff` — the programs that compare
* `Formula.value_of_checkShape` — a formula with such a program has the value of the program
-/

namespace Formulary

variable {lib : MathLibrary} {env env' : Environment} {provider : Provider}

/-! ### Pieces of programs -/

theorem map_eq_ok_iff {ε α β : Type} {f : α → β} {outcome : Except ε α} {b : β} :
    outcome.map f = .ok b ↔ ∃ a, outcome = .ok a ∧ f a = b := by
  cases outcome <;> simp [Except.map]

theorem map_eq_error_iff {ε α β : Type} {f : α → β} {outcome : Except ε α} {e : ε} :
    outcome.map f = .error e ↔ outcome = .error e := by
  cases outcome <;> simp [Except.map]

theorem execute_singleton (t : Token) (stack : List Float) :
    execute lib env [t] stack = t.execute lib env stack := by
  rw [execute_cons]
  cases t.execute lib env stack with
  | error e => rfl
  | ok left => exact execute_nil lib env left

/-- Where a program is executed, its first token is executed, and then the rest. -/
theorem execute_cons_eq_ok_iff {t : Token} {rest : List Token} {stack left : List Float} :
    execute lib env (t :: rest) stack = .ok left ↔
      ∃ between, t.execute lib env stack = .ok between ∧
        execute lib env rest between = .ok left := by
  rw [execute_cons]
  cases t.execute lib env stack <;> simp

/-- A program fails as its first token does, or as the rest does after it. -/
theorem execute_cons_eq_error_iff {t : Token} {rest : List Token} {stack : List Float}
    {e : EvalError} :
    execute lib env (t :: rest) stack = .error e ↔
      t.execute lib env stack = .error e ∨
        ∃ between, t.execute lib env stack = .ok between ∧
          execute lib env rest between = .error e := by
  rw [execute_cons]
  cases t.execute lib env stack <;> simp

/-- **Piece by piece.** Where a program is executed, each of two pieces of it is, one after the
other. -/
theorem execute_append_eq_ok_iff {program rest : List Token} {stack left : List Float} :
    execute lib env (program ++ rest) stack = .ok left ↔
      ∃ between, execute lib env program stack = .ok between ∧
        execute lib env rest between = .ok left := by
  induction program generalizing stack with
  | nil => simp
  | cons t program ih =>
    rw [List.cons_append, execute_cons_eq_ok_iff]
    simp only [ih, execute_cons_eq_ok_iff]
    constructor
    · rintro ⟨first, ht, between, hprogram, hrest⟩
      exact ⟨between, ⟨first, ht, hprogram⟩, hrest⟩
    · rintro ⟨between, ⟨first, ht, hprogram⟩, hrest⟩
      exact ⟨first, ht, between, hprogram, hrest⟩

/-- A program has a value when it leaves this value and nothing else. -/
theorem valueOf_eq_ok_iff {program : List Token} {v : Float} :
    valueOf lib env program = .ok v ↔ execute lib env program [] = .ok [v] := by
  rw [valueOf]
  cases execute lib env program [] with
  | error e => simp
  | ok left =>
    match left with
    | [] => simp [onlyValue]
    | [w] => simp [onlyValue]
    | w :: w' :: left => simp [onlyValue]

/-- A group has the value of its program. -/
theorem Token.execute_group {name source : String} {tokens program : List Token}
    (hne : program ≠ []) (stack : List Float) :
    (Token.group name provider source tokens program).execute lib env stack
      = (valueOf lib (env.asking provider) program).map (· :: stack) := by
  rw [Token.execute, if_neg (by simpa using hne), valueOf]
  cases Formulary.execute lib (env.asking provider) program [] <;> rfl

/-- A group that is executed has a value, which it puts on the stack. -/
theorem Token.exists_valueOf_of_execute_group {name source : String} {tokens program : List Token}
    {stack left : List Float}
    (h : (Token.group name provider source tokens program).execute lib env stack = .ok left) :
    ∃ v, valueOf lib (env.asking provider) program = .ok v ∧ left = v :: stack := by
  cases program with
  | nil =>
    rw [Token.execute] at h
    cases h
  | cons t rest =>
    rw [Token.execute_group (List.cons_ne_nil t rest), map_eq_ok_iff] at h
    obtain ⟨v, hv, rfl⟩ := h
    exact ⟨v, hv, rfl⟩

/-! ### Names -/

mutual

/-- A token does the same in environments that agree on its names. -/
theorem Token.execute_congr (t : Token) (hshares : SharesProvider env.provider [t])
    (hprovider : env.provider = env'.provider) (h : ∀ name ∈ t.references, env name = env' name)
    (stack : List Float) : t.execute lib env stack = t.execute lib env' stack := by
  match t with
  | .constant c => rw [Token.execute, Token.execute]
  | .operator op => rw [Token.execute, Token.execute]
  | .reference name =>
    have hname : env name = env' name := h name (by simp [Token.references])
    rw [Token.execute, Token.execute, lookUp, lookUp, hname]
  | .group name provider source tokens program =>
    have hprogram : ∀ name ∈ references program, env name = env' name := by
      intro name hname
      exact h name (by rw [Token.references]; exact hname)
    obtain ⟨rfl, -, hshares⟩ := sharesProvider_group_iff.mp hshares
    rw [Token.execute, Token.execute, Environment.asking_provider, hprovider,
      Environment.asking_provider, execute_congr program hshares hprovider hprogram]

/-- A program does the same in environments that agree on its names. -/
theorem execute_congr (program : List Token) (hshares : SharesProvider env.provider program)
    (hprovider : env.provider = env'.provider)
    (h : ∀ name ∈ references program, env name = env' name) (stack : List Float) :
    execute lib env program stack = execute lib env' program stack := by
  match program with
  | [] => rw [execute_nil, execute_nil]
  | t :: rest =>
    simp only [references_cons, List.mem_append] at h
    obtain ⟨ht, hrest⟩ := sharesProvider_cons_iff.mp hshares
    rw [execute_cons, execute_cons,
      t.execute_congr ht hprovider (fun name hname => h name (.inl hname))]
    cases t.execute lib env' stack with
    | error e => rfl
    | ok stack' =>
      exact execute_congr rest hrest hprovider (fun name hname => h name (.inr hname)) stack'

end

/-- **Only its names matter.** A program has the same value in environments that agree on the names
that it refers to. -/
theorem valueOf_congr {program : List Token} (hshares : SharesProvider env.provider program)
    (hprovider : env.provider = env'.provider)
    (h : ∀ name ∈ references program, env name = env' name) :
    valueOf lib env program = valueOf lib env' program := by
  rw [valueOf, valueOf, execute_congr program hshares hprovider h]

theorem unresolved_congr {program : List Token}
    (h : ∀ name ∈ references program, env name = env' name) :
    unresolved env program = unresolved env' program := by
  rw [unresolved, unresolved]
  refine List.filter_congr fun name hname => ?_
  rw [h name hname]

mutual

theorem Token.isSome_of_execute (t : Token) (hshares : SharesProvider env.provider [t])
    {stack stack' : List Float} (h : t.execute lib env stack = .ok stack') :
    ∀ name ∈ t.references, (env name).isSome := by
  match t with
  | .constant c => simp [Token.references]
  | .operator op => simp [Token.references]
  | .reference name =>
    rw [Token.execute, lookUp] at h
    intro n hn
    obtain rfl : n = name := by simpa [Token.references] using hn
    cases hname : env n with
    | none => rw [hname] at h; cases h
    | some v => rfl
  | .group name provider source tokens program =>
    obtain ⟨v, hv, -⟩ := Token.exists_valueOf_of_execute_group h
    obtain ⟨rfl, -, hshares⟩ := sharesProvider_group_iff.mp hshares
    rw [Environment.asking_provider] at hv
    rw [Token.references]
    exact isSome_of_execute program hshares (valueOf_eq_ok_iff.mp hv)

/-- A program that ends without a failure has found all its names bound. -/
theorem isSome_of_execute (program : List Token) (hshares : SharesProvider env.provider program)
    {stack stack' : List Float} (h : execute lib env program stack = .ok stack') :
    ∀ name ∈ references program, (env name).isSome := by
  match program with
  | [] => simp
  | t :: rest =>
    obtain ⟨between, ht, hrest⟩ := execute_cons_eq_ok_iff.mp h
    obtain ⟨hshares, hshares'⟩ := sharesProvider_cons_iff.mp hshares
    intro name hname
    rw [references_cons, List.mem_append] at hname
    rcases hname with hname | hname
    · exact t.isSome_of_execute hshares ht name hname
    · exact isSome_of_execute rest hshares' hrest name hname

end

/-- **Values need all names.** Where a program has a value, every name that it refers to is
bound. -/
theorem unresolved_eq_nil_of_valueOf {program : List Token}
    (hshares : SharesProvider env.provider program) {v : Float}
    (h : valueOf lib env program = .ok v) : unresolved env program = [] := by
  rw [unresolved, List.filter_eq_nil_iff]
  intro name hname
  have hbound := isSome_of_execute program hshares (valueOf_eq_ok_iff.mp h) name hname
  simp [Option.isSome_iff_ne_none.mp hbound]

/-! ### Operators -/

/-- **What an operator does.** An operator that does not fail puts one value in the place of its
operands, which is its value for them. -/
theorem exists_of_applyOperator {op : Operator} {stack left : List Float}
    (h : applyOperator lib op stack = .ok left) : ∃ v rest, left = v :: rest ∧
      ((∃ x, stack = x :: rest ∧ applyUnary lib op.symbol x = .ok v) ∨
        ∃ lhs rhs, stack = rhs :: lhs :: rest ∧ applyBinary lib op.symbol lhs rhs = .ok v) := by
  obtain ⟨symbol, arity⟩ := op
  match arity, stack with
  | .unary, [] | .binary, [] | .binary, [_] => cases h
  | .unary, x :: rest =>
    obtain ⟨v, hv, rfl⟩ := map_eq_ok_iff.mp h
    exact ⟨v, rest, rfl, .inl ⟨x, rfl, hv⟩⟩
  | .binary, rhs :: lhs :: rest =>
    obtain ⟨v, hv, rfl⟩ := map_eq_ok_iff.mp h
    exact ⟨v, rest, rfl, .inr ⟨lhs, rhs, rfl, hv⟩⟩

/-- An operator fails because it lacks operands, or because it has no value for them. -/
theorem eq_or_exists_of_applyOperator_error {op : Operator} {stack : List Float} {e : EvalError}
    (h : applyOperator lib op stack = .error e) :
    e = .underflow op.symbol op.arity.count stack.length ∨
      (∃ x, applyUnary lib op.symbol x = .error e) ∨
      ∃ lhs rhs, applyBinary lib op.symbol lhs rhs = .error e := by
  obtain ⟨symbol, arity⟩ := op
  match arity, stack with
  | .unary, [] | .binary, [] | .binary, [_] =>
    cases h
    exact .inl rfl
  | .unary, x :: rest => exact .inr (.inl ⟨x, map_eq_error_iff.mp h⟩)
  | .binary, rhs :: lhs :: rest => exact .inr (.inr ⟨lhs, rhs, map_eq_error_iff.mp h⟩)

/-! ### Shape -/

theorem depthAfter_append (depth : Nat) (program rest : List Token) :
    depthAfter depth (program ++ rest) =
      match depthAfter depth program with
      | .error e => .error e
      | .ok depth' => depthAfter depth' rest := by
  induction program generalizing depth with
  | nil => rfl
  | cons t program ih =>
    rcases t.isOperand_or_eq_operator with ht | ⟨op, rfl⟩
    · rw [List.cons_append, depthAfter_cons_operand ht, depthAfter_cons_operand ht, ih]
    · rw [List.cons_append, depthAfter, depthAfter]
      split
      · rfl
      · exact ih _

/-- Execution leaves something if there is anything to begin with or anything to execute. -/
theorem pos_of_depthAfter {depth depth' : Nat} {program : List Token}
    (h : depthAfter depth program = .ok depth') (hpos : 0 < depth ∨ program ≠ []) :
    0 < depth' := by
  induction program generalizing depth with
  | nil =>
    cases h
    exact hpos.resolve_right (fun hne => hne rfl)
  | cons t program ih =>
    rcases t.isOperand_or_eq_operator with ht | ⟨op, rfl⟩
    · rw [depthAfter_cons_operand ht] at h
      exact ih h (.inl (Nat.succ_pos _))
    · rw [depthAfter] at h
      split at h
      · cases h
      · exact ih h (.inl (Nat.succ_pos _))

/-- A program of more than one token compares if the operator that it ends with does. -/
theorem isComparison_of_last_operator {t u : Token} {rest : List Token} {op : Operator}
    (h : (t :: u :: rest).getLast? = some (.operator op)) :
    isComparison (t :: u :: rest) = .ok op.isComparison := by
  rw [isComparison, h]
  simp

theorem isComparison_of_last_operand {t u last : Token} {rest : List Token}
    (h : (t :: u :: rest).getLast? = some last) (hlast : last.isOperand = true) :
    isComparison (t :: u :: rest) = .error (.malformed .lastOperand) := by
  rw [isComparison, h]
  · cases last with
    | operator op => cases hlast
    | constant c => rfl
    | reference name => rfl
    | group name provider source tokens program => rfl
  · simp

/-- What ends with an operator compares if the operator does, unless it is the operator alone. -/
theorem isComparison_append_operator {init : List Token} (hne : init ≠ []) (op : Operator) :
    isComparison (init ++ [.operator op]) = .ok op.isComparison := by
  obtain ⟨t, rest, rfl⟩ := List.exists_cons_of_ne_nil hne
  obtain ⟨u, rest', hrest⟩ : ∃ u rest', rest ++ [.operator op] = u :: rest' :=
    List.exists_cons_of_ne_nil (by simp)
  have hlast : (t :: (rest ++ [.operator op])).getLast? = some (.operator op) :=
    List.getLast?_concat (l := t :: rest)
  rw [hrest] at hlast
  rw [List.cons_append, hrest, isComparison_of_last_operator hlast]

/-- **What compares.** A program compares exactly when it ends with an operator that compares, and
this is not all of it. -/
theorem isComparison_eq_ok_true_iff {program : List Token} :
    isComparison program = .ok true ↔
      ∃ init op, program = init ++ [.operator op] ∧ init ≠ [] ∧ op.isComparison = true := by
  constructor
  · intro h
    match program with
    | [] => cases h
    | [t] =>
      rw [isComparison] at h
      split at h <;> cases h
    | t :: u :: rest =>
      obtain ⟨last, hlast⟩ : ∃ last, (t :: u :: rest).getLast? = some last :=
        ⟨_, List.getLast?_eq_some_getLast (List.cons_ne_nil t _)⟩
      rcases last.isOperand_or_eq_operator with hoperand | ⟨op, rfl⟩
      · rw [isComparison_of_last_operand hlast hoperand] at h
        cases h
      · rw [isComparison_of_last_operator hlast, Except.ok.injEq] at h
        obtain ⟨init, hinit⟩ := List.getLast?_eq_some_iff.mp hlast
        refine ⟨init, op, hinit, ?_, h⟩
        rintro rfl
        cases hinit
  · rintro ⟨init, op, rfl, hne, hop⟩
    rw [isComparison_append_operator hne, hop]

/-- **Shape classifies.** A program of the right shape gives a number or a truth value. -/
theorem exists_isComparison {program : List Token} (h : checkShape program = .ok ()) :
    ∃ comparison, isComparison program = .ok comparison := by
  obtain ⟨hne, hdepth⟩ := depthAfter_of_checkShape h
  obtain ⟨init, last, rfl⟩ := (List.eq_nil_or_concat program).resolve_left hne
  rw [List.concat_eq_append] at hdepth ⊢
  rcases last.isOperand_or_eq_operator with hlast | ⟨op, rfl⟩
  · cases init with
    | nil => exact ⟨false, by simp [isComparison, hlast]⟩
    | cons t rest =>
      -- An operand in the last place lies on top of what the rest has left.
      rw [depthAfter_append] at hdepth
      split at hdepth
      · cases hdepth
      · rename_i depth hbefore
        have hpos := pos_of_depthAfter hbefore (.inr (List.cons_ne_nil t rest))
        rw [depthAfter_cons_operand hlast] at hdepth
        cases hdepth
        omega
  · cases init with
    | nil =>
      -- A lone operator finds nothing on the stack.
      have hcount : 0 < op.arity.count := by
        cases op.arity <;> decide
      rw [List.nil_append, depthAfter, if_pos hcount] at hdepth
      cases hdepth
    | cons t rest => exact ⟨_, isComparison_append_operator (List.cons_ne_nil t rest) op⟩

/-- What a text parses to has a program of the right shape. -/
theorem checkShape_of_parse {source : String} {p : Parsed} (h : parse provider source = .ok p) :
    checkShape p.program = .ok () :=
  (arrange_eq_ok_iff.mp (parse_eq_ok_iff.mp h).2).2

theorem program_ne_nil_of_parse {source : String} {p : Parsed} (h : parse provider source = .ok p) :
    p.program ≠ [] :=
  (depthAfter_of_checkShape (checkShape_of_parse h)).1

/-! ### Formulas -/

namespace Formula

/-- Evaluating a formula keeps its value, if it has one, and changes nothing else. -/
theorem update_eq (lib : MathLibrary) (bindings : Bindings) (f : Formula) :
    f.update lib bindings = ({ f with lastValue := (f.value lib bindings).toOption.or f.lastValue },
      f.value lib bindings) := by
  rw [update]
  cases f.value lib bindings <;> rfl

section Shape

variable {f : Formula} (hf : checkShape f.program = .ok ())

include hf

/-- A program of the right shape is not empty, so its formula has been generated. -/
theorem whenGenerated_of_checkShape {α : Type} (k : List Token → Except EvalError α) :
    f.whenGenerated k = k f.program := by
  have hne : ¬ f.program.isEmpty = true := by
    simpa using (depthAfter_of_checkShape hf).1
  rw [whenGenerated, if_neg hne]

theorem exists_isComparison_of_checkShape : ∃ comparison, f.isComparison = .ok comparison := by
  rw [isComparison, whenGenerated_of_checkShape hf]
  exact exists_isComparison hf

theorem value_of_checkShape (lib : MathLibrary) (bindings : Bindings) :
    f.value lib bindings = valueOf lib (f.environment bindings) f.program :=
  whenGenerated_of_checkShape hf _

end Shape

/-- The generation of a formula whose text parses. -/
theorem generate_of_parse {f : Formula} {p : Parsed} (h : parse f.provider f.source = .ok p) :
    f.generate = (⟨f.name, f.provider, f.source, p.tokens, p.program, none⟩, .ok ()) := by
  rw [generate, h]
  rfl

/-- The generation of a formula whose text does not parse leaves nothing. -/
theorem generate_of_parse_error {f : Formula} {e : ParseError}
    (h : parse f.provider f.source = .error e) : f.generate = (f.clear, .error e) := by
  rw [generate, h]

end Formula

/-- A text that parses has the value of its program. -/
theorem evaluate_of_parse {source : String} {p : Parsed}
    (h : parse env.provider source = .ok p) (lib : MathLibrary) :
    evaluate lib env source = (valueOf lib env p.program).mapError .eval := by
  have hgenerate := Formula.generate_of_parse (f := .ofText "expression" env.provider source) h
  have hvalue : Formula.value lib env.bindings
      ⟨"expression", env.provider, source, p.tokens, p.program, none⟩ = valueOf lib env p.program :=
    Formula.value_of_checkShape (checkShape_of_parse h) lib env.bindings
  rw [evaluate, hgenerate]
  dsimp only [Formula.ofText]
  rw [hvalue]
  cases valueOf lib env p.program <;> rfl

/-- A text that has a value parses, and its program has this value. -/
theorem exists_parse_of_evaluate {source : String} {v : Float}
    (h : evaluate lib env source = .ok v) :
    ∃ p, parse env.provider source = .ok p ∧ valueOf lib env p.program = .ok v := by
  cases hparse : parse env.provider source with
  | error e =>
    rw [evaluate, Formula.generate, Formula.ofText, hparse] at h
    cases h
  | ok p =>
    rw [evaluate_of_parse hparse] at h
    cases hvalue : valueOf lib env p.program with
    | error e =>
      rw [hvalue] at h
      cases h
    | ok w =>
      rw [hvalue] at h
      cases h
      exact ⟨p, rfl, hvalue⟩

end Formulary
