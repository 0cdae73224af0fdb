import Formulary.Evaluation
import Formulary.Parse

/-!
# Formulas

A named text together with what has been made of it: its tokens in both orders once it is
generated, and the value of its last update. Changing the text, and generating anew, forget both.
The provider that a formula is made for stays with it, and is asked at each evaluation.

## Main definitions

* `Formula` — a named text and what has been made of it
* `Formula.generate` — parsing the text; a failure leaves no tokens
* `Formula.value`, `Formula.update` — evaluating, and evaluating and keeping the value
* `Formula.isComparison`, `Formula.compareKind` — the sort of the result
* `Formula.lines` — the tree of tokens, one line each
* `evaluate` — parsing and evaluating a text in one step
-/

namespace Formulary

/-- A named text and what has been made of it. -/
structure Formula where
  name : String
  /-- The provider that is asked what names are bound to. -/
  provider : Provider
  source : String
  /-- The tokens in the order they were written; none before generation. -/
  tokens : List Token
  /-- The tokens in the order they are executed; none before generation. -/
  program : List Token
  /-- The value of the last update since the text was last generated or changed. -/
  lastValue : Option Float

/-- Which of its two token lists a formula is shown by. -/
inductive View where
  | written
  | executed
deriving DecidableEq, Repr

mutual

/-- The lines of a token: its text, and for a group the lines of its tokens two columns further
right. -/
def Token.lines (view : View) (indent : String) : Token → List String
  | .group _ _ source tokens program =>
    (indent ++ Token.line "Expression" source) ::
      match view with
      | .written => tokenLines view (indent ++ "  ") tokens
      | .executed => tokenLines view (indent ++ "  ") program
  | t => [indent ++ t.text]

/-- The lines of a list of tokens. -/
def tokenLines (view : View) (indent : String) : List Token → List String
  | [] => []
  | t :: rest => t.lines view indent ++ tokenLines view indent rest

end

namespace Formula

/-- A formula with a text that is not generated yet. -/
def ofText (name : String) (provider : Provider) (source : String) : Formula :=
  ⟨name, provider, source, [], [], none⟩

/-- A formula without a text. -/
def ofName (name : String) (provider : Provider) : Formula := ofText name provider ""

/-- The formula with nothing made of its text. -/
def clear (f : Formula) : Formula := { f with tokens := [], program := [], lastValue := none }

/-- The formula with another text, of which nothing has been made. -/
def setText (f : Formula) (source : String) : Formula := { f with source := source }.clear

/-- The formula as a group of a larger one. -/
def toToken (f : Formula) : Token := .group f.name f.provider f.source f.tokens f.program

/-- The name and the text. -/
def title (f : Formula) : String := f.name ++ ": " ++ f.source

/-- Parses the text. What was made of it before is forgotten first, so that a failure leaves no
tokens and no value. -/
def generate (f : Formula) : Formula × Except ParseError Unit :=
  match parse f.provider f.source with
  | .error e => (f.clear, .error e)
  | .ok p => ({ f.clear with tokens := p.tokens, program := p.program }, .ok ())

/-- Something that needs a program, from a formula that has one. -/
def whenGenerated {α : Type} (f : Formula) (k : List Token → Except EvalError α) :
    Except EvalError α :=
  if f.program.isEmpty then .error (.notGenerated f.name) else k f.program

/-- The names that a formula refers to, those inside groups included. -/
def references (f : Formula) : List String := Formulary.references f.program

/-- What a formula looks names up in: its provider is asked. -/
def environment (bindings : Bindings) (f : Formula) : Environment := ⟨bindings, f.provider⟩

/-- The names without a binding that a formula refers to, repetitions kept. -/
def unresolved (bindings : Bindings) (f : Formula) : List String :=
  Formulary.unresolved (f.environment bindings) f.program

/-- Whether no name that a formula refers to is without a binding, by listing them. -/
def validate (bindings : Bindings) (f : Formula) : Bool := (f.unresolved bindings).isEmpty

/-- Whether every name that a formula refers to is bound, stopping at the first that is not. -/
def isResolved (bindings : Bindings) (f : Formula) : Bool :=
  allResolved (f.environment bindings) f.program

/-- Whether the result of a formula is a truth value. -/
def isComparison (f : Formula) : Except EvalError Bool := f.whenGenerated Formulary.isComparison

/-- The order of two formulas by the sort of their results, numbers before truth values. -/
def compareKind (f g : Formula) : Except EvalError Ordering :=
  match f.isComparison with
  | .error e => .error e
  | .ok a => g.isComparison.map fun b => compare a.toNat b.toNat

/-- The value of a formula. -/
def value (lib : MathLibrary) (bindings : Bindings) (f : Formula) : Except EvalError Float :=
  f.whenGenerated (valueOf lib (f.environment bindings))

/-- Evaluates a formula and keeps the value; a failure changes nothing. -/
def update (lib : MathLibrary) (bindings : Bindings) (f : Formula) :
    Formula × Except EvalError Float :=
  match f.value lib bindings with
  | .error e => (f, .error e)
  | .ok v => ({ f with lastValue := some v }, .ok v)

/-- Whether two formulas have the same name, text and tokens, whatever their providers. -/
def same (f g : Formula) : Bool :=
  f.name == g.name && f.source == g.source && sameTokens f.tokens g.tokens
    && sameTokens f.program g.program

/-- The tree of tokens of a formula, one line each, under a line for the formula. -/
def lines (view : View) (f : Formula) : List String := f.toToken.lines view ""

end Formula

/-- Why a text has no value. -/
inductive Failure where
  /-- It is no formula. -/
  | parse (cause : ParseError)
  /-- It cannot be evaluated. -/
  | eval (cause : EvalError)
deriving DecidableEq

/-- The value of a text. -/
def evaluate (lib : MathLibrary) (env : Environment) (source : String) : Except Failure Float :=
  match (Formula.ofText "expression" env.provider source).generate with
  | (_, .error e) => .error (.parse e)
  | (f, .ok ()) =>
    match f.value lib env.bindings with
    | .error e => .error (.eval e)
    | .ok v => .ok v

end Formulary
