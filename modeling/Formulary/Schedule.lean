import Formulary.Dependencies
import Formulary.Formula

/-!
# The order of evaluation

Named formulas can refer to each other. A formula depends on the formula whose name it refers to;
of several formulas with one name, on the last. `evaluationOrder` puts every formula after those
it depends on, so that their values can be bound to their names before it is evaluated. Wherever
there is a choice, numbers come before truth values and then the formula that stands first.

## Main definitions

* `lastBearer?` — the last formula with a name
* `dependencies` — which formulas depend on which
* `comesBefore` — the preferred one of two formulas
* `evaluationOrder` — the order, or the formulas that depend on themselves
-/

namespace Formulary

/-- The number of the last one of a list of names that is `name`. -/
def lastBearer? (name : String) : List String → Option Nat
  | [] => none
  | n :: rest =>
    match lastBearer? name rest with
    | some i => some (i + 1)
    | none => if n = name then some 0 else none

/-- For each formula the formulas whose names it refers to. -/
def dependencies (formulas : List Formula) : Dependencies :=
  ⟨formulas.map fun f =>
    (f.references.filterMap (lastBearer? · (formulas.map Formula.name))).eraseDups⟩

/-- Whether formula `i` is preferred to formula `j`, given which of them give truth values. -/
def comesBefore (comparisons : List Bool) (i j : Nat) : Bool :=
  match comparisons.getD i false, comparisons.getD j false with
  | false, true => true
  | true, false => false
  | _, _ => i < j

/-- The numbers of the formulas in an order of evaluation. A formula that is not generated is
reported before any circle. -/
def evaluationOrder (formulas : List Formula) : Except EvalError (List Nat) :=
  match formulas.mapM Formula.isComparison with
  | .error e => .error e
  | .ok comparisons =>
    let g := dependencies formulas
    if g.isCyclic then
      .error (.cycle ((formulas.zipIdx.filter fun p => g.onCycle p.2).map fun p => p.1.name))
    else .ok (g.order (comesBefore comparisons))

end Formulary
