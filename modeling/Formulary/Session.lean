import Formulary.Formula
import Formulary.Table

/-!
# Sessions

Formulas that are made, changed, generated and evaluated over time against tables that change as
well. Every provider is a table, and a formula is made for one of them. Formulas are numbered in the
order they are made and are never dropped.

## Main definitions

* `Session` — the tables and the formulas made so far
* `Session.Action`, `Session.Reply` — what can be done, and what comes of it
* `Session.perform` — doing it
* `Session.run` — doing one thing after another
-/

namespace Formulary

/-- The table of each provider and the formulas made so far. -/
structure Session where
  tables : Provider → Table
  formulas : List Formula

namespace Session

/-- What can be done in a session. Formulas are meant by their numbers. -/
inductive Action where
  /-- Bind a name to a value. -/
  | bind (provider : Provider) (name : String) (value : Float)
  /-- Undo the binding of a name. -/
  | unbind (provider : Provider) (name : String)
  /-- Make a formula without a text. -/
  | new (name : String) (provider : Provider)
  /-- Make a formula with a text. -/
  | newText (name : String) (provider : Provider) (source : String)
  /-- Make a copy of a formula. -/
  | copy (i : Nat)
  /-- Give a formula another text. -/
  | setText (i : Nat) (source : String)
  /-- Parse the text of a formula. -/
  | generate (i : Nat)
  /-- Evaluate a formula. -/
  | value (i : Nat)
  /-- Evaluate a formula and keep its value. -/
  | update (i : Nat)

/-- What comes of an action. -/
inductive Reply where
  /-- What the name was bound to before. -/
  | previous (value : Option Float)
  /-- The number of the formula that was made. -/
  | made (i : Nat)
  /-- There is nothing to say. -/
  | done
  /-- Whether the text is a formula. -/
  | parsed (outcome : Except ParseError Unit)
  /-- The value of the formula. -/
  | evaluated (outcome : Except EvalError Float)
  /-- There is no formula of this number. -/
  | noFormula (i : Nat)

/-- What the tables answer. -/
def bindings (s : Session) : Bindings := fun provider => (s.tables provider).get?

/-- Changes the table of a provider. -/
def setTable (s : Session) (provider : Provider) (table : Table) : Session :=
  { s with tables := fun other => if other = provider then table else s.tables other }

/-- The session with one more formula. -/
def add (s : Session) (f : Formula) : Session × Reply :=
  ({ s with formulas := s.formulas ++ [f] }, .made s.formulas.length)

/-- Does something with formula `i` that may change it. -/
def alter (s : Session) (i : Nat) (change : Formula → Formula × Reply) : Session × Reply :=
  match s.formulas[i]? with
  | none => (s, .noFormula i)
  | some f => ({ s with formulas := s.formulas.set i (change f).1 }, (change f).2)

/-- Performs an action. -/
def perform (lib : MathLibrary) (s : Session) : Action → Session × Reply
  | .bind provider name v =>
    (s.setTable provider ((s.tables provider).insert name v),
      .previous ((s.tables provider).get? name))
  | .unbind provider name =>
    (s.setTable provider ((s.tables provider).erase name),
      .previous ((s.tables provider).get? name))
  | .new name provider => s.add (.ofName name provider)
  | .newText name provider source => s.add (.ofText name provider source)
  | .copy i =>
    match s.formulas[i]? with
    | none => (s, .noFormula i)
    | some f => s.add f
  | .setText i source => s.alter i fun f => (f.setText source, .done)
  | .generate i => s.alter i fun f => let r := f.generate; (r.1, .parsed r.2)
  | .value i => s.alter i fun f => (f, .evaluated (f.value lib s.bindings))
  | .update i =>
    s.alter i fun f => let r := f.update lib s.bindings; (r.1, .evaluated r.2)

/-- Performs actions one after another. -/
def run (lib : MathLibrary) (s : Session) (actions : List Action) : Session :=
  actions.foldl (fun s a => (s.perform lib a).1) s

/-- A session in which nothing has been made. -/
def ofTables (tables : Provider → Table) : Session := ⟨tables, []⟩

@[simp] theorem run_nil (lib : MathLibrary) (s : Session) : s.run lib [] = s := rfl

@[simp] theorem run_cons (lib : MathLibrary) (s : Session) (a : Action) (rest : List Action) :
    s.run lib (a :: rest) = (s.perform lib a).1.run lib rest := rfl

@[simp] theorem run_append (lib : MathLibrary) (s : Session) (l m : List Action) :
    s.run lib (l ++ m) = (s.run lib l).run lib m := List.foldl_append

theorem bindings_setTable (s : Session) (provider : Provider) (table : Table)
    (provider' : Provider) (name : String) :
    (s.setTable provider table).bindings provider' name =
      if provider' = provider then table.get? name else s.bindings provider' name := by
  rw [bindings, bindings, setTable]
  exact apply_ite (Table.get? · name) _ _ _

end Session

end Formulary
