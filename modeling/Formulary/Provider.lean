/-!
# Providers

Names are not bound once and for all. What a name is bound to is asked of a provider each time it is
needed, and the answer may change in between. Formulas keep the provider they were made for, and so
do the groups in them; they do not keep what it answers.

## Main definitions

* `Provider` — a source of bindings
* `Bindings` — what all providers answer at some time
* `Environment` — what all providers answer, and which of them is asked
-/

namespace Formulary

/-- A source of bindings, known by its number. -/
structure Provider where
  number : Nat
deriving DecidableEq, Repr

/-- The provider where there is only one. -/
def Provider.sole : Provider := ⟨0⟩

/-- What each name is bound to, if anything, by each provider. -/
abbrev Bindings := Provider → String → Option Float

/-- What a program looks names up in: the bindings, and the provider that is asked. -/
structure Environment where
  bindings : Bindings
  provider : Provider

namespace Environment

/-- What a name is bound to. -/
def get? (env : Environment) (name : String) : Option Float := env.bindings env.provider name

instance : CoeFun Environment fun _ => String → Option Float := ⟨get?⟩

/-- The same bindings, with another provider asked. -/
def asking (env : Environment) (provider : Provider) : Environment := ⟨env.bindings, provider⟩

/-- The environment of the only provider there is. -/
def ofLookup (lookup : String → Option Float) : Environment := ⟨fun _ => lookup, .sole⟩

@[simp] theorem asking_provider (env : Environment) : env.asking env.provider = env := rfl

@[simp] theorem get?_ofLookup (lookup : String → Option Float) (name : String) :
    ofLookup lookup name = lookup name := rfl

end Environment

end Formulary
