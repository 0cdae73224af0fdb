import Formulary.Proofs.Programs
import Mathlib.Data.List.Induction

/-!
# Counting values and having them

Whether a program can be executed is decided by counting: each operand adds one, each operator takes
as many as it has operands and adds one. Execution has the values themselves, on a stack, and checks
at each operator and at the end that they are there. The two never part. As long as no token fails
for another reason, the stack is as high as the count says, so that execution finds too few values
at the very operator where counting stops, and is left with as many as are counted.

What can come between is a token that has its operands and fails all the same: a name that is not
bound, a group that fails, an operator that has no value for its operands. Execution ends there, and
counting, which knows no values, goes on.

All of this is true of any list of tokens, put together by hand or found in a text.

## Main definitions

* `Token.Refuses` — whether a token fails although it finds its operands
* `FailsAt` — whether a program fails for such a token, and where
* `StopsAt` — where counting stops, and at what number

## Main results

* `Token.execute_of_depthAfter` — what a token does to the height of the stack
* `execute_of_depthAfter` — the stack is as high as was counted
* `valueOf_of_stopsAt` — execution finds too few values where counting stops
* `valueOf_follows_checkShape` — what counting comes to tells what execution can come to
-/

namespace Formulary

/-- Whether a token fails although it finds its operands: a name that is not bound, a group that
fails, or an operator that has no value for its operands. -/
inductive Token.Refuses (lib : MathLibrary) (env : Environment) :
    Token → List Float → EvalError → Prop where
  | reference {name : String} {stack : List Float} (h : env name = none) :
      Refuses lib env (.reference name) stack (.unresolved name)
  | groupWithoutProgram {name source : String} {provider : Provider} {tokens : List Token}
      {stack : List Float} :
      Refuses lib env (.group name provider source tokens []) stack (.notGenerated name)
  | group {name source : String} {provider : Provider} {tokens program : List Token}
      {stack : List Float} {e : EvalError} (hne : program ≠ [])
      (h : valueOf lib (env.asking provider) program = .error e) :
      Refuses lib env (.group name provider source tokens program) stack e
  | unary {symbol : Symbol} {x : Float} {rest : List Float} {e : EvalError}
      (h : applyUnary lib symbol x = .error e) :
      Refuses lib env (.operator (.unary symbol)) (x :: rest) e
  | binary {symbol : Symbol} {lhs rhs : Float} {rest : List Float} {e : EvalError}
      (h : applyBinary lib symbol lhs rhs = .error e) :
      Refuses lib env (.operator (.binary symbol)) (rhs :: lhs :: rest) e

/-- Whether a program fails at a position although every operator finds its operands up to there:
the tokens before it are executed, and the token there refuses. -/
def FailsAt (lib : MathLibrary) (env : Environment) (program : List Token) (stack : List Float)
    (k : Nat) (e : EvalError) : Prop :=
  ∃ t between, program[k]? = some t ∧
    execute lib env (program.take k) stack = .ok between ∧ t.Refuses lib env between e

/-- Whether counting stops at a position: at an operator, with fewer values than it takes. -/
structure StopsAt (program : List Token) (k : Nat) (op : Operator) (depth : Nat) : Prop where
  getElem? : program[k]? = some (.operator op)
  before : depthAfter 0 (program.take k) = .ok depth
  lt : depth < op.arity.count

/-- Whether a failure says that the number of values is wrong. -/
def EvalError.IsOfShape : EvalError → Prop
  | underflow _ _ _ | leftover _ => True
  | unresolved _ | notGenerated _ | malformed _ | unsupported _ _ | divisionByZero | domain _ _
  | cycle _ => False

variable {lib : MathLibrary} {env : Environment}

/-! ### One token -/

theorem Token.execute_unary (symbol : Symbol) (x : Float) (rest : List Float) :
    Token.execute lib env (.operator (.unary symbol)) (x :: rest)
      = (applyUnary lib symbol x).map (· :: rest) := by
  rw [Token.execute]
  rfl

theorem Token.execute_binary (symbol : Symbol) (lhs rhs : Float) (rest : List Float) :
    Token.execute lib env (.operator (.binary symbol)) (rhs :: lhs :: rest)
      = (applyBinary lib symbol lhs rhs).map (· :: rest) := by
  rw [Token.execute]
  rfl

/-- A token that refuses fails. -/
theorem Token.Refuses.execute_eq {t : Token} {stack : List Float} {e : EvalError}
    (h : t.Refuses lib env stack e) : t.execute lib env stack = .error e := by
  cases h with
  | reference h =>
    rw [Token.execute, lookUp, h]
    rfl
  | groupWithoutProgram => rw [Token.execute, List.isEmpty_nil, if_pos rfl]
  | group hne h =>
    rw [Token.execute_group hne, h]
    rfl
  | unary h =>
    rw [Token.execute_unary, h]
    rfl
  | binary h =>
    rw [Token.execute_binary, h]
    rfl

/-- Only a group that fails so itself refuses because the number of values is wrong. -/
theorem Token.Refuses.exists_group {t : Token} {stack : List Float} {e : EvalError}
    (h : t.Refuses lib env stack e) (he : e.IsOfShape) :
    ∃ name provider source tokens program, t = .group name provider source tokens program ∧
      valueOf lib (env.asking provider) program = .error e := by
  cases h with
  | reference _ => cases he
  | groupWithoutProgram => cases he
  | group _ h => exact ⟨_, _, _, _, _, rfl, h⟩
  | unary h =>
    rw [applyUnary] at h
    split at h
    · cases h
      cases he
    · dsimp only at h
      split at h <;> cases h
      cases he
  | binary h =>
    unfold applyBinary at h
    split at h
    case h_4 =>
      split at h <;> cases h
      cases he
    case h_5 =>
      rw [applyPower] at h
      split at h <;> cases h
      cases he
    all_goals cases h
    cases he

/-- An operand puts one value on the stack, or refuses. -/
theorem Token.execute_operand {t : Token} (ht : t.isOperand = true) (stack : List Float) :
    (∃ v, t.execute lib env stack = .ok (v :: stack)) ∨ ∃ e, t.Refuses lib env stack e := by
  cases t with
  | operator op => cases ht
  | constant c => exact .inl ⟨c.value, by rw [Token.execute]⟩
  | reference name =>
    cases hname : env name with
    | none => exact .inr ⟨_, .reference hname⟩
    | some v =>
      refine .inl ⟨v, ?_⟩
      rw [Token.execute, lookUp, hname]
      rfl
  | group name provider source tokens program =>
    by_cases hne : program = []
    · subst hne
      exact .inr ⟨_, .groupWithoutProgram⟩
    · cases hvalue : valueOf lib (env.asking provider) program with
      | error e => exact .inr ⟨e, .group hne hvalue⟩
      | ok v =>
        refine .inl ⟨v, ?_⟩
        rw [Token.execute_group hne, hvalue]
        rfl

/-- An operator that finds its operands puts one value in their place, or refuses. -/
theorem Token.execute_operator {op : Operator} {stack : List Float}
    (h : op.arity.count ≤ stack.length) :
    (∃ left, Token.execute lib env (.operator op) stack = .ok left ∧
      left.length = stack.length - op.arity.count + 1) ∨
      ∃ e, Token.Refuses lib env (.operator op) stack e := by
  obtain ⟨symbol, arity⟩ := op
  cases arity with
  | unary =>
    obtain ⟨x, rest, rfl⟩ := List.exists_cons_of_length_pos h
    cases hvalue : applyUnary lib symbol x with
    | error e => exact .inr ⟨e, .unary hvalue⟩
    | ok v =>
      refine .inl ⟨v :: rest, ?_, rfl⟩
      rw [Token.execute_unary, hvalue]
      rfl
  | binary =>
    match stack, h with
    | rhs :: lhs :: rest, _ =>
      cases hvalue : applyBinary lib symbol lhs rhs with
      | error e => exact .inr ⟨e, .binary hvalue⟩
      | ok v =>
        refine .inl ⟨v :: rest, ?_, rfl⟩
        rw [Token.execute_binary, hvalue]
        rfl

/-- An operator that does not find its operands says how many there are. -/
theorem Token.execute_operator_of_lt {op : Operator} {stack : List Float}
    (h : stack.length < op.arity.count) :
    Token.execute lib env (.operator op) stack
      = .error (.underflow op.symbol op.arity.count stack.length) := by
  rw [Token.execute]
  obtain ⟨symbol, arity⟩ := op
  match arity, stack with
  | .unary, [] | .binary, [] | .binary, [_] => rfl
  | .unary, x :: rest => exact absurd h (by simp [Arity.count])
  | .binary, rhs :: lhs :: rest => exact absurd h (by simp [Arity.count])

/-- **One token.** A token that can be counted leaves the stack as high as is counted, or
refuses. -/
theorem Token.execute_of_depthAfter {t : Token} {stack : List Float} {depth : Nat}
    (h : depthAfter stack.length [t] = .ok depth) :
    (∃ left, t.execute lib env stack = .ok left ∧ left.length = depth) ∨
      ∃ e, t.Refuses lib env stack e := by
  rcases t.isOperand_or_eq_operator with ht | ⟨op, rfl⟩
  · rw [depthAfter_cons_operand ht] at h
    cases h
    exact (Token.execute_operand ht stack).imp_left fun ⟨v, hv⟩ => ⟨_, hv, rfl⟩
  · rw [depthAfter] at h
    split at h
    · cases h
    · rename_i hfound
      cases h
      exact Token.execute_operator (Nat.not_lt.mp hfound)

/-! ### Programs -/

section Programs

variable {program : List Token} {stack : List Float} {k : Nat} {e : EvalError}

/-- After a piece that is executed comes the rest. -/
theorem execute_append_of_ok {rest : List Token} {between : List Float}
    (h : execute lib env program stack = .ok between) :
    execute lib env (program ++ rest) stack = execute lib env rest between := by
  induction program generalizing stack with
  | nil =>
    rw [execute_nil] at h
    cases h
    rfl
  | cons t program ih =>
    obtain ⟨first, ht, hprogram⟩ := execute_cons_eq_ok_iff.mp h
    rw [List.cons_append, execute_cons, ht]
    exact ih hprogram

/-- After the tokens before a position comes the token there. -/
theorem execute_eq_error_of_getElem? {t : Token} {between : List Float}
    (ht : program[k]? = some t) (hbefore : execute lib env (program.take k) stack = .ok between)
    (h : t.execute lib env between = .error e) : execute lib env program stack = .error e := by
  obtain ⟨hk, rfl⟩ := List.getElem?_eq_some_iff.mp ht
  rw [← List.take_append_drop k program, execute_append_of_ok hbefore,
    List.drop_eq_getElem_cons hk, execute_cons, h]

/-- A program that fails at a position fails. -/
theorem FailsAt.execute_eq (h : FailsAt lib env program stack k e) :
    execute lib env program stack = .error e := by
  obtain ⟨t, between, ht, hbefore, hrefuses⟩ := h
  exact execute_eq_error_of_getElem? ht hbefore hrefuses.execute_eq

theorem FailsAt.here {t : Token} {rest : List Token} (h : t.Refuses lib env stack e) :
    FailsAt lib env (t :: rest) stack 0 e :=
  ⟨t, stack, rfl, execute_nil lib env stack, h⟩

theorem FailsAt.later {t : Token} {rest : List Token} {between : List Float}
    (ht : t.execute lib env stack = .ok between) (h : FailsAt lib env rest between k e) :
    FailsAt lib env (t :: rest) stack (k + 1) e := by
  obtain ⟨u, before, hu, hbefore, hrefuses⟩ := h
  refine ⟨u, before, hu, ?_, hrefuses⟩
  exact execute_cons_eq_ok_iff.mpr ⟨between, ht, hbefore⟩

/-- What fails before a position fails there in the whole as well. -/
theorem FailsAt.of_take {j : Nat} (h : FailsAt lib env (program.take k) stack j e) (hj : j < k) :
    FailsAt lib env program stack j e := by
  obtain ⟨t, between, ht, hbefore, hrefuses⟩ := h
  rw [List.getElem?_take_of_lt hj] at ht
  rw [List.take_take, Nat.min_eq_left (Nat.le_of_lt hj)] at hbefore
  exact ⟨t, between, ht, hbefore, hrefuses⟩

/-- **The stack is as high as was counted**, unless a token refuses before the end. -/
theorem execute_of_depthAfter {depth : Nat} (h : depthAfter stack.length program = .ok depth) :
    (∃ left, execute lib env program stack = .ok left ∧ left.length = depth) ∨
      ∃ k < program.length, ∃ e, FailsAt lib env program stack k e := by
  induction program generalizing stack with
  | nil =>
    cases h
    exact .inl ⟨stack, execute_nil lib env stack, rfl⟩
  | cons t rest ih =>
    rw [← List.singleton_append, depthAfter_append] at h
    split at h
    · cases h
    · rename_i height hheight
      rcases @Token.execute_of_depthAfter lib env _ _ _ hheight with
        ⟨between, ht, rfl⟩ | ⟨e, hrefuses⟩
      · rcases ih h with ⟨left, hleft, hlength⟩ | ⟨k, hk, e, hfails⟩
        · exact .inl ⟨left, execute_cons_eq_ok_iff.mpr ⟨between, ht, hleft⟩, hlength⟩
        · exact .inr ⟨k + 1, Nat.succ_lt_succ hk, e, hfails.later ht⟩
      · exact .inr ⟨0, Nat.succ_pos _, e, .here hrefuses⟩

/-- A program that fails at a position has no value. -/
theorem FailsAt.valueOf_eq (h : FailsAt lib env program [] k e) :
    valueOf lib env program = .error e := by
  rw [valueOf, h.execute_eq]

/-- A program fails at a position because the number of values is wrong only if a group there fails
so itself. -/
theorem FailsAt.exists_group (h : FailsAt lib env program stack k e) (he : e.IsOfShape) :
    ∃ name provider source tokens inner,
      program[k]? = some (.group name provider source tokens inner) ∧
        valueOf lib (env.asking provider) inner = .error e := by
  obtain ⟨t, between, ht, -, hrefuses⟩ := h
  obtain ⟨name, provider, source, tokens, inner, rfl, hinner⟩ := hrefuses.exists_group he
  exact ⟨name, provider, source, tokens, inner, ht, hinner⟩

end Programs

/-! ### Where counting stops -/

section Counting

variable {program : List Token} {k depth : Nat} {op : Operator}

theorem StopsAt.append (h : StopsAt program k op depth) (rest : List Token) :
    StopsAt (program ++ rest) k op depth := by
  obtain ⟨hk, -⟩ := List.getElem?_eq_some_iff.mp h.getElem?
  refine ⟨?_, ?_, h.lt⟩
  · rw [List.getElem?_append_left hk, h.getElem?]
  · rw [List.take_append_of_le_length (Nat.le_of_lt hk), h.before]

/-- Where counting stops, the operator is named. -/
theorem StopsAt.depthAfter_eq (h : StopsAt program k op depth) :
    depthAfter 0 program = .error (.missingOperand op.symbol) := by
  obtain ⟨hk, hop⟩ := List.getElem?_eq_some_iff.mp h.getElem?
  rw [← List.take_append_drop k program, depthAfter_append, h.before,
    List.drop_eq_getElem_cons hk, hop]
  dsimp only
  rw [depthAfter, if_pos h.lt]

/-- Counting that does not come to the end has stopped somewhere. -/
theorem exists_stopsAt {cause : ParseError} (h : depthAfter 0 program = .error cause) :
    ∃ k op depth, StopsAt program k op depth := by
  induction program using List.reverseRecOn with
  | nil => cases h
  | append_singleton init t ih =>
    rw [depthAfter_append] at h
    split at h
    · rename_i cause' hinit
      obtain ⟨k, op, depth, hstops⟩ := ih (hinit.trans h)
      exact ⟨k, op, depth, hstops.append [t]⟩
    · rename_i depth hinit
      rcases t.isOperand_or_eq_operator with ht | ⟨op, rfl⟩
      · rw [depthAfter_cons_operand ht] at h
        cases h
      · rw [depthAfter] at h
        split at h
        · rename_i hlt
          refine ⟨init.length, op, depth, List.getElem?_concat_length, ?_, hlt⟩
          rw [List.take_left, hinit]
        · cases h

/-- What the shape of a program is, by counting. -/
theorem checkShape_of_ne_nil (hne : program ≠ []) :
    checkShape program =
      match depthAfter 0 program with
      | .error cause => .error cause
      | .ok 1 => .ok ()
      | .ok depth => .error (.unjoined depth) := by
  rw [checkShape]
  exact if_neg (by simpa using hne)

theorem checkShape_of_depthAfter (hne : program ≠ []) (h : depthAfter 0 program = .ok depth)
    (hdepth : depth ≠ 1) : checkShape program = .error (.unjoined depth) := by
  rw [checkShape_of_ne_nil hne, h]
  split
  · rename_i heq
    cases heq
  · rename_i heq
    cases heq
    exact absurd rfl hdepth
  · rename_i heq
    cases heq
    rfl

/-- A shape is refused where counting stops, or for the number that is counted. -/
theorem exists_of_checkShape_error {cause : ParseError} (hne : program ≠ [])
    (h : checkShape program = .error cause) :
    (∃ k op depth, StopsAt program k op depth) ∨
      ∃ depth, depthAfter 0 program = .ok depth ∧ depth ≠ 1 := by
  cases hdepth : depthAfter 0 program with
  | error cause' => exact .inl (exists_stopsAt hdepth)
  | ok depth =>
    refine .inr ⟨depth, rfl, ?_⟩
    rintro rfl
    rw [checkShape_of_ne_nil hne, hdepth] at h
    cases h

/-! ### What execution comes to -/

/-- A program of the right shape has a value, or a token refuses. -/
theorem valueOf_of_checkShape (h : checkShape program = .ok ()) :
    (∃ v, valueOf lib env program = .ok v) ∨ ∃ k e, FailsAt lib env program [] k e := by
  rcases @execute_of_depthAfter lib env _ [] _ (depthAfter_of_checkShape h).2 with
    ⟨left, hleft, hlength⟩ | ⟨k, -, e, hfails⟩
  · obtain ⟨v, rfl⟩ := List.length_eq_one_iff.mp hlength
    exact .inl ⟨v, valueOf_eq_ok_iff.mpr hleft⟩
  · exact .inr ⟨k, e, hfails⟩

/-- **Too few values** are found where counting stops, and as many as were counted, unless a token
refuses before. -/
theorem valueOf_of_stopsAt (h : StopsAt program k op depth) :
    (∃ j < k, ∃ e, FailsAt lib env program [] j e) ∨
      (∃ left, execute lib env (program.take k) [] = .ok left ∧ left.length = depth) ∧
        valueOf lib env program = .error (.underflow op.symbol op.arity.count depth) := by
  rcases @execute_of_depthAfter lib env _ [] _ h.before with
    ⟨left, hleft, rfl⟩ | ⟨j, hj, e, hfails⟩
  · refine .inr ⟨⟨left, hleft, rfl⟩, ?_⟩
    rw [valueOf, execute_eq_error_of_getElem? h.getElem? hleft (Token.execute_operator_of_lt h.lt)]
  · have hj : j < k := Nat.lt_of_lt_of_le hj (List.length_take_le k program)
    exact .inl ⟨j, hj, e, hfails.of_take hj⟩

/-- **Too many values**, or none, are left over, and as many as were counted, unless a token
refuses. -/
theorem valueOf_of_depthAfter (h : depthAfter 0 program = .ok depth) (hdepth : depth ≠ 1) :
    (∃ k e, FailsAt lib env program [] k e) ∨
      valueOf lib env program = .error (.leftover depth) := by
  rcases @execute_of_depthAfter lib env _ [] _ h with
    ⟨left, hleft, rfl⟩ | ⟨k, -, e, hfails⟩
  · refine .inr ?_
    rw [valueOf, hleft]
    rcases left with _ | ⟨v, _ | ⟨w, left⟩⟩
    · rfl
    · exact absurd rfl hdepth
    · rfl
  · exact .inl ⟨k, e, hfails⟩

/-- Where counting refuses a program, it has no value. -/
theorem checkShape_of_valueOf {v : Float} (h : valueOf lib env program = .ok v) :
    checkShape program = .ok () := by
  have hfails : ∀ {k e}, ¬ FailsAt lib env program [] k e := by
    intro k e hfails
    rw [hfails.valueOf_eq] at h
    cases h
  have hne : program ≠ [] := by
    rintro rfl
    cases valueOf_eq_ok_iff.mp h
  cases hshape : checkShape program with
  | ok u => rfl
  | error cause =>
    rcases exists_of_checkShape_error hne hshape with ⟨k, op, depth, hstops⟩ | ⟨depth, hd, hdepth⟩
    · rcases @valueOf_of_stopsAt lib env _ _ _ _ hstops with ⟨j, -, e, hj⟩ | ⟨-, heq⟩
      · exact absurd hj hfails
      · rw [heq] at h
        cases h
    · rcases @valueOf_of_depthAfter lib env _ _ hd hdepth with ⟨j, e, hj⟩ | heq
      · exact absurd hj hfails
      · rw [heq] at h
        cases h

end Counting

/-- **Counting tells what execution can come to**, for every list of tokens and in every
environment. Where a token refuses, execution fails there, and not for the number of values unless
the token is a group that does so itself. Otherwise a program of the right shape has a value, and it
can be classified; where counting stops, execution finds as many values as were counted, too few;
and where counting ends with another number than one, so many values are left over. There is no
other way for a shape to be wrong, so that what has a value has the right shape. -/
theorem valueOf_follows_checkShape {program : List Token} (hne : program ≠ []) (lib : MathLibrary)
    (env : Environment) :
    (∀ k e, FailsAt lib env program [] k e → valueOf lib env program = .error e ∧
      (e.IsOfShape → ∃ name provider source tokens inner,
        program[k]? = some (.group name provider source tokens inner) ∧
          valueOf lib (env.asking provider) inner = .error e)) ∧
    (checkShape program = .ok () →
      (∃ comparison, isComparison program = .ok comparison) ∧
        ((∃ v, valueOf lib env program = .ok v) ∨ ∃ k e, FailsAt lib env program [] k e)) ∧
    (∀ k op depth, StopsAt program k op depth →
      checkShape program = .error (.missingOperand op.symbol) ∧
        ((∃ j < k, ∃ e, FailsAt lib env program [] j e) ∨
          (∃ left, execute lib env (program.take k) [] = .ok left ∧ left.length = depth) ∧
            valueOf lib env program = .error (.underflow op.symbol op.arity.count depth))) ∧
    (∀ depth, depthAfter 0 program = .ok depth → depth ≠ 1 →
      checkShape program = .error (.unjoined depth) ∧
        ((∃ k e, FailsAt lib env program [] k e) ∨
          valueOf lib env program = .error (.leftover depth))) ∧
    (∀ cause, checkShape program = .error cause →
      (∃ k op depth, StopsAt program k op depth) ∨
        ∃ depth, depthAfter 0 program = .ok depth ∧ depth ≠ 1) ∧
    ∀ v, valueOf lib env program = .ok v → checkShape program = .ok () := by
  refine ⟨fun k e h => ⟨h.valueOf_eq, h.exists_group⟩, fun h => ?_, fun k op depth h => ?_,
    fun depth h hdepth => ?_, fun cause => exists_of_checkShape_error hne,
    fun v => checkShape_of_valueOf⟩
  · exact ⟨exists_isComparison h, valueOf_of_checkShape h⟩
  · refine ⟨?_, valueOf_of_stopsAt h⟩
    rw [checkShape_of_ne_nil hne, h.depthAfter_eq]
  · exact ⟨checkShape_of_depthAfter hne h hdepth, valueOf_of_depthAfter h hdepth⟩

/-- A plus sign after one name stops counting. If the name is bound, execution finds one value there
instead of two; if it is not, execution fails before. -/
theorem valueOf_follows_checkShape_one_operand :
    let program := [.reference "a", .operator (.binary .add), .constant (.whole 1)]
    checkShape program = .error (.missingOperand .add) ∧
      valueOf .system (.ofLookup fun _ => some 1.0) program = .error (.underflow .add 2 1) ∧
      FailsAt .system (.ofLookup fun _ => none) program [] 0 (.unresolved "a") ∧
      valueOf .system (.ofLookup fun _ => none) program = .error (.unresolved "a") := by
  intro program
  have hstops : StopsAt program 1 (.binary .add) 1 := ⟨rfl, rfl, by decide⟩
  have hfails : FailsAt .system (.ofLookup fun _ => none) program [] 0 (.unresolved "a") :=
    .here (.reference rfl)
  have hne : program ≠ [] := List.cons_ne_nil _ _
  obtain ⟨-, -, hbound, -⟩ := valueOf_follows_checkShape hne .system (.ofLookup fun _ => some 1.0)
  obtain ⟨hunbound, -⟩ := valueOf_follows_checkShape hne .system (.ofLookup fun _ => none)
  exact ⟨(hbound 1 _ 1 hstops).1, rfl, hfails, (hunbound 0 _ hfails).1⟩

end Formulary
