import Formulary.Arrangement
import Formulary.Formula

/-!
# Formulas as trees

What a formula means is told by a tree: an operator applies to the trees below it, and the leaves
have values of their own. The value of a tree is computed from the left, so the failure that is
reported is that of the first node that fails when the nodes are taken operands first.

The listing of a tree with its operators last is a program for the stack, and executing it is
evaluating the tree, whatever is on the stack before and whatever is executed afterwards. Both
halves of the arrangement, that the shape is right and that the value is, follow from this one
fact about listings.

## Main definitions

* `Tree` — a formula as a tree with leaves of any sort
* `Tree.value` — its value, given the values of its leaves
* `Tree.subtrees` — its nodes, operands first
* `Operand`, `Operand.value` — the tokens that have a value of their own
* `Tree.program` — the listing of a tree of operands, operators last

## Main results

* `Tree.failure?_value` — the failure of a tree is that of its first node that fails
* `Tree.valueOf_program` — executing the listing is evaluating the tree
* `Tree.checkShape_program` — the listing has the shape of a program
-/

namespace Formulary

/-- A formula as a tree. -/
inductive Tree (α : Type) where
  /-- Something that has a value of its own. -/
  | leaf (a : α)
  /-- An operator before its operand. -/
  | unary (symbol : Symbol) (operand : Tree α)
  /-- An operator between its operands. -/
  | binary (symbol : Symbol) (lhs rhs : Tree α)

/-- Why there is no value, if there is none. -/
def failure? {α : Type} : Except EvalError α → Option EvalError
  | .error e => some e
  | .ok _ => none

@[simp] theorem failure?_error {α : Type} (e : EvalError) :
    failure? (.error e : Except EvalError α) = some e := rfl

@[simp] theorem failure?_ok {α : Type} (a : α) : failure? (.ok a) = none := rfl

namespace Tree

variable {α : Type} (lib : MathLibrary) (leafValue : α → Except EvalError Float)

/-- The value of a tree: the left operand first, then the right one, then the operator. -/
def value : Tree α → Except EvalError Float
  | leaf a => leafValue a
  | unary symbol operand =>
    match operand.value with
    | .error e => .error e
    | .ok x => applyUnary lib symbol x
  | binary symbol lhs rhs =>
    match lhs.value with
    | .error e => .error e
    | .ok x =>
      match rhs.value with
      | .error e => .error e
      | .ok y => applyBinary lib symbol x y

/-- The nodes of a tree, each as the tree below it, in the order in which they are evaluated. -/
def subtrees : Tree α → List (Tree α)
  | leaf a => [leaf a]
  | unary symbol operand => operand.subtrees ++ [unary symbol operand]
  | binary symbol lhs rhs => lhs.subtrees ++ rhs.subtrees ++ [binary symbol lhs rhs]

/-- **The first failure.** A tree fails with the failure of its first node that fails, the nodes
taken operands first and from the left. -/
theorem failure?_value (t : Tree α) :
    failure? (t.value lib leafValue)
      = t.subtrees.findSome? fun u => failure? (u.value lib leafValue) := by
  induction t with
  | leaf a => cases h : leafValue a <;> simp [subtrees, value, h]
  | unary symbol operand ih =>
    rw [subtrees, List.findSome?_append, ← ih]
    cases h : operand.value lib leafValue with
    | error e => simp [value, h]
    | ok x => cases hx : applyUnary lib symbol x <;> simp [value, h, hx]
  | binary symbol lhs rhs ihl ihr =>
    rw [subtrees, List.findSome?_append, List.findSome?_append, ← ihl, ← ihr]
    cases hl : lhs.value lib leafValue with
    | error e => simp [value, hl]
    | ok x =>
      cases hr : rhs.value lib leafValue with
      | error e => simp [value, hl, hr]
      | ok y => cases hxy : applyBinary lib symbol x y <;> simp [value, hl, hr, hxy]

end Tree

/-! ### Operands -/

/-- A token that has a value of its own. -/
inductive Operand where
  /-- A number. -/
  | constant (c : Constant)
  /-- A name whose value is looked up. -/
  | reference (name : String)
  /-- A parenthesised formula. -/
  | group (name : String) (provider : Provider) (source : String) (tokens program : List Token)

namespace Operand

/-- The operand as a token. -/
def token : Operand → Token
  | constant c => .constant c
  | reference name => .reference name
  | group name provider source tokens program => .group name provider source tokens program

/-- The value of an operand: a group has the value of its formula, whose provider is asked. -/
def value (lib : MathLibrary) (env : Environment) : Operand → Except EvalError Float
  | constant c => .ok c.value
  | reference name => lookUp env name
  | group name provider source tokens program =>
    (⟨name, provider, source, tokens, program, none⟩ : Formula).value lib env.bindings

/-- Executing an operand puts its value on the stack. -/
theorem execute_token (lib : MathLibrary) (env : Environment) (a : Operand) (stack : List Float) :
    a.token.execute lib env stack = (a.value lib env).map (· :: stack) := by
  cases a with
  | constant c => rw [token, Token.execute]; rfl
  | reference name => rw [token, Token.execute]; rfl
  | group name provider source tokens program =>
    rw [token, Token.execute, value, Formula.value, Formula.whenGenerated]
    split
    · rfl
    · rw [valueOf, Formula.environment, Environment.asking]
      cases execute lib ⟨env.bindings, provider⟩ program [] <;> rfl

end Operand

/-- A token is an operand or an operator. -/
theorem Token.eq_token_or_eq_operator (t : Token) :
    (∃ a : Operand, t = a.token) ∨ ∃ op, t = .operator op := by
  cases t with
  | constant c => exact .inl ⟨.constant c, rfl⟩
  | reference name => exact .inl ⟨.reference name, rfl⟩
  | operator op => exact .inr ⟨op, rfl⟩
  | group name provider source tokens program =>
    exact .inl ⟨.group name provider source tokens program, rfl⟩

/-! ### Listings -/

namespace Tree

variable (lib : MathLibrary) (env : Environment)

/-- The tokens of a tree, operators last. -/
def program : Tree Operand → List Token
  | leaf a => [a.token]
  | unary symbol operand => operand.program ++ [.operator (.unary symbol)]
  | binary symbol lhs rhs => lhs.program ++ rhs.program ++ [.operator (.binary symbol)]

theorem program_ne_nil (t : Tree Operand) : t.program ≠ [] := by
  cases t <;> simp [program]

/-- Executing a listing puts the value of the tree on the stack, or ends with its failure. -/
theorem execute_program_append (t : Tree Operand) (rest : List Token) (stack : List Float) :
    execute lib env (t.program ++ rest) stack =
      match t.value lib (Operand.value lib env) with
      | .error e => .error e
      | .ok v => execute lib env rest (v :: stack) := by
  induction t generalizing rest stack with
  | leaf a =>
    rw [program, List.singleton_append, execute_cons, a.execute_token, value]
    cases a.value lib env <;> rfl
  | unary symbol operand ih =>
    rw [program, List.append_assoc, ih, value]
    cases operand.value lib (Operand.value lib env) with
    | error e => rfl
    | ok x =>
      simp only [List.singleton_append, execute_cons, Token.execute, applyOperator]
      cases applyUnary lib symbol x <;> rfl
  | binary symbol lhs rhs ihl ihr =>
    rw [program, List.append_assoc, List.append_assoc, ihl, value]
    cases lhs.value lib (Operand.value lib env) with
    | error e => rfl
    | ok x =>
      simp only [ihr]
      cases rhs.value lib (Operand.value lib env) with
      | error e => rfl
      | ok y =>
        simp only [List.singleton_append, execute_cons, Token.execute, applyOperator]
        cases applyBinary lib symbol x y <;> rfl

/-- **Listings compute values.** Executing the listing of a tree is evaluating the tree. -/
theorem valueOf_program (t : Tree Operand) :
    valueOf lib env t.program = t.value lib (Operand.value lib env) := by
  have h := execute_program_append lib env t [] []
  rw [List.append_nil] at h
  rw [valueOf, h]
  cases t.value lib (Operand.value lib env) <;> simp [onlyValue]

/-- A listing leaves one value more than there was. -/
theorem depthAfter_program_append (t : Tree Operand) (rest : List Token) (depth : Nat) :
    depthAfter depth (t.program ++ rest) = depthAfter (depth + 1) rest := by
  induction t generalizing rest depth with
  | leaf a => cases a <;> rfl
  | unary symbol operand ih =>
    rw [program, List.append_assoc, ih]
    simp [depthAfter, Arity.count]
  | binary symbol lhs rhs ihl ihr =>
    have hfound : ¬ depth + 1 + 1 < 2 := by omega
    rw [program, List.append_assoc, List.append_assoc, ihl, ihr]
    simp [depthAfter, Arity.count, hfound]

theorem checkShape_program (t : Tree Operand) : checkShape t.program = .ok () := by
  have h := depthAfter_program_append t [] 0
  rw [List.append_nil] at h
  simp [checkShape, t.program_ne_nil, h, depthAfter]

end Tree

end Formulary
