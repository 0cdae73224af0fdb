import Formulary.ParseError
import Formulary.Token

/-!
# Arranging tokens for execution

A formula is scanned with each operator between or before its operands and executed with each
operator after them. `arrangeOnto` moves the operators: an operand goes out at once, and an
operator waits on a stack. An operator between operands first lets out the waiting operators that
bind at least as tightly, so that operators of one precedence group from the left; an operator
before its operand has nothing on its left and lets nothing out.

Moving operators never looks at neighbours, so it arranges any list of tokens. Whether the outcome
is a program is decided afterwards by counting values (`depthAfter`): each operator must find its
operands, and one value must be left.

## Main definitions

* `arrangeOnto` — the tokens in execution order
* `depthAfter` — the number of values after execution, or the operator that finds too few
* `checkShape` — whether execution leaves exactly one value
* `arrange` — the program of a list of tokens
-/

namespace Formulary

/-- The tokens in execution order, the operators on `stack` waiting. -/
def arrangeOnto : (stack : List Operator) → List Token → List Token
  | stack, [] => stack.map .operator
  | stack, .operator op :: rest =>
    if op.isPrefix then arrangeOnto (op :: stack) rest
    else
      (stack.takeWhile fun top => op.precedence ≤ top.precedence).map .operator
        ++ arrangeOnto (op :: stack.dropWhile fun top => op.precedence ≤ top.precedence) rest
  | stack, operand :: rest => operand :: arrangeOnto stack rest

/-- The number of values on the stack after execution, from a number before it; or the first
operator that finds fewer values than it takes. -/
def depthAfter : (depth : Nat) → List Token → Except ParseError Nat
  | depth, [] => .ok depth
  | depth, .operator op :: rest =>
    if depth < op.arity.count then .error (.missingOperand op.symbol)
    else depthAfter (depth - op.arity.count + 1) rest
  | depth, _ :: rest => depthAfter (depth + 1) rest

/-- Whether execution finds every operand and leaves exactly one value. -/
def checkShape (program : List Token) : Except ParseError Unit :=
  if program.isEmpty then .error .emptyText
  else
    match depthAfter 0 program with
    | .error e => .error e
    | .ok 1 => .ok ()
    | .ok depth => .error (.unjoined depth)

/-- The program of a list of tokens, or why there is none. -/
def arrange (tokens : List Token) : Except ParseError (List Token) :=
  let program := arrangeOnto [] tokens
  match checkShape program with
  | .ok () => .ok program
  | .error e => .error e

theorem depthAfter_cons_operand {t : Token} (ht : t.isOperand = true) (depth : Nat)
    (rest : List Token) : depthAfter depth (t :: rest) = depthAfter (depth + 1) rest := by
  cases t with
  | operator op => cases ht
  | constant c => rfl
  | reference name => rfl
  | group name source tokens program => rfl

/-- An operand goes out at once. -/
theorem arrangeOnto_cons_operand {t : Token} (ht : t.isOperand = true) (stack : List Operator)
    (rest : List Token) : arrangeOnto stack (t :: rest) = t :: arrangeOnto stack rest := by
  cases t with
  | operator op => cases ht
  | constant c => rfl
  | reference name => rfl
  | group name source tokens program => rfl

/-- A program of the right shape is executed from no value to one. -/
theorem depthAfter_of_checkShape {program : List Token} (h : checkShape program = .ok ()) :
    program ≠ [] ∧ depthAfter 0 program = .ok 1 := by
  rw [checkShape] at h
  split at h
  · cases h
  · rename_i hne
    refine ⟨by simpa using hne, ?_⟩
    split at h
    · cases h
    · assumption
    · cases h

/-- A program that is given is the tokens in execution order, and its shape is right. -/
theorem arrange_eq_ok_iff {tokens program : List Token} :
    arrange tokens = .ok program ↔
      arrangeOnto [] tokens = program ∧ checkShape program = .ok () := by
  unfold arrange
  constructor
  · intro h
    dsimp only at h
    split at h
    · rename_i hs
      obtain rfl := Except.ok.inj h
      exact ⟨rfl, hs⟩
    · cases h
  · rintro ⟨rfl, hs⟩
    simp [hs]

/-- **Nothing is lost.** The arrangement holds the tokens and the operators that wait, in another
order. -/
theorem arrangeOnto_perm (stack : List Operator) (tokens : List Token) :
    (arrangeOnto stack tokens).Perm (stack.map .operator ++ tokens) := by
  fun_induction arrangeOnto stack tokens with
  | case1 stack => simp
  | case2 stack op rest _ ih => exact ih.trans List.perm_middle.symm
  | case3 stack op rest _ ih =>
    -- The operators that are let out are those from the top of the stack.
    refine (ih.append_left _).trans ?_
    rw [List.map_cons, List.cons_append]
    refine List.perm_middle.trans ?_
    rw [← List.append_assoc, ← List.map_append, List.takeWhile_append_dropWhile]
    exact List.perm_middle.symm
  | case4 stack operand rest _ ih => exact (ih.cons _).trans List.perm_middle.symm

/-- Arranging keeps the number of tokens. -/
theorem length_arrangeOnto (stack : List Operator) (tokens : List Token) :
    (arrangeOnto stack tokens).length = stack.length + tokens.length := by
  simpa using (arrangeOnto_perm stack tokens).length_eq

end Formulary
