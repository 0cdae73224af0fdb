import Formulary.Proofs.Enclosing
import Formulary.Proofs.Resolution
import Formulary.Session

/-!
# Names that matter

A formula asks its provider, which binds many names, and other names are bound, bound anew and
unbound while it waits. What it takes from there are the values of the names that it refers to,
those inside groups included. So when its provider answers the same for these names, everything is
the same to it: nothing that is done to the other names can be noticed by asking it, and nothing at
all that is done to other providers.

Nothing is assumed of what providers answer: whether one is a table, and of which sort, plays no
part.

## Main definitions

* `Formula.IsIndifferent` — whether a formula cannot tell bindings from other ones
* `Session.Action.rebound?` — the name that an action binds or unbinds, and where

## Main results

* `Session.bindings_run` — a name keeps its binding through everything that is done to other names
* `Formula.isIndifferent_of_references` — a formula cannot tell bindings apart that agree on the
  names that it refers to
-/

namespace Formulary

/-- Whether a formula cannot tell bindings from other ones: whatever it is asked, the answer is the
same with both. -/
structure Formula.IsIndifferent (f : Formula) (bindings bindings' : Bindings) : Prop where
  value_eq : ∀ lib, f.value lib bindings = f.value lib bindings'
  isResolved_eq : f.isResolved bindings = f.isResolved bindings'
  validate_eq : f.validate bindings = f.validate bindings'
  unresolved_eq : f.unresolved bindings = f.unresolved bindings'

namespace Formula

variable {f : Formula} {bindings bindings' : Bindings} (hshares : f.SharesProvider)
  (h : ∀ name ∈ f.references, bindings f.provider name = bindings' f.provider name)

include hshares h

theorem value_congr (lib : MathLibrary) : f.value lib bindings = f.value lib bindings' := by
  have hvalue : valueOf lib (f.environment bindings) f.program
      = valueOf lib (f.environment bindings') f.program := valueOf_congr hshares.program rfl h
  rw [value, value, whenGenerated, whenGenerated, hvalue]

theorem isIndifferent_of_forall : f.IsIndifferent bindings bindings' := by
  have hunresolved : f.unresolved bindings = f.unresolved bindings' := unresolved_congr h
  refine ⟨value_congr hshares h, ?_, ?_, hunresolved⟩
  · -- Going through the tokens is going through the names, which comes to the same in both.
    calc f.isResolved bindings = (f.unresolved bindings).isEmpty := allResolved_eq hshares.program
      _ = (f.unresolved bindings').isEmpty := by rw [hunresolved]
      _ = f.isResolved bindings' := (allResolved_eq hshares.program).symm
  · rw [validate, validate, hunresolved]

end Formula

namespace Session

variable {lib : MathLibrary} {s : Session} {provider : Provider} {name : String}

/-- The name that an action binds or unbinds, if it does either, with the provider. -/
def Action.rebound? : Action → Option (Provider × String)
  | bind provider name _ | unbind provider name => some (provider, name)
  | new _ _ | newText _ _ _ | copy _ | setText _ _ | generate _ | value _ | update _ => none

theorem tables_alter (i : Nat) (change : Formula → Formula × Reply) :
    (s.alter i change).1.tables = s.tables := by
  rw [alter]
  split <;> rfl

/-- A table that is changed for one name is as it was for all other names and providers. -/
theorem bindings_setTable_of_ne {provider' : Provider} {table : Table} {name' : String}
    (htable : name ≠ name' → table.get? name = (s.tables provider').get? name)
    (hne : (provider', name') ≠ (provider, name)) :
    (s.setTable provider' table).bindings provider name = s.bindings provider name := by
  rw [bindings_setTable]
  split
  · rename_i hprovider
    subst hprovider
    exact htable fun hname => hne (by rw [hname])
  · rfl

/-- An action that is not about a name leaves its binding. -/
theorem bindings_perform {a : Action} (h : a.rebound? ≠ some (provider, name)) :
    (s.perform lib a).1.bindings provider name = s.bindings provider name := by
  cases a with
  | bind provider' name' v =>
    refine bindings_setTable_of_ne (fun hname => ?_) fun heq => h (congrArg some heq)
    rw [Table.get?_insert, if_neg hname]
  | unbind provider' name' =>
    refine bindings_setTable_of_ne (fun hname => ?_) fun heq => h (congrArg some heq)
    rw [Table.get?_erase, if_neg hname]
  | new name' provider' => rfl
  | newText name' provider' source => rfl
  | copy i =>
    rw [perform]
    split <;> rfl
  | setText i source => rw [perform, bindings, tables_alter, bindings]
  | generate i => rw [perform, bindings, tables_alter, bindings]
  | value i => rw [perform, bindings, tables_alter, bindings]
  | update i => rw [perform, bindings, tables_alter, bindings]

/-- **Bindings stay.** A name keeps its binding, or stays without one, through everything that is
done to other names, to other providers and to formulas. -/
theorem bindings_run {actions : List Action}
    (h : ∀ a ∈ actions, a.rebound? ≠ some (provider, name)) :
    (s.run lib actions).bindings provider name = s.bindings provider name := by
  induction actions generalizing s with
  | nil => rfl
  | cons a rest ih =>
    obtain ⟨ha, hrest⟩ := List.forall_mem_cons.mp h
    rw [run_cons, ih hrest, bindings_perform ha]

end Session

/-- **Only the names that are listed matter.** A formula has the same value or the same failure, the
same answers to its checks, and the same names without a binding whatever its provider answers, as
long as it answers the same for the names that the formula refers to. So nothing changes for it in a
session in which other names are bound and unbound, however often, and whatever is done to other
providers and to formulas. -/
theorem Formula.isIndifferent_of_references {f : Formula} (hf : f.Made) :
    (∀ bindings bindings' : Bindings,
      (∀ name ∈ f.references, bindings f.provider name = bindings' f.provider name) →
        f.IsIndifferent bindings bindings') ∧
    ∀ (lib : MathLibrary) (s : Session) (actions : List Session.Action),
      (∀ a ∈ actions, ∀ name ∈ f.references, a.rebound? ≠ some (f.provider, name)) →
        f.IsIndifferent s.bindings (s.run lib actions).bindings := by
  have hshares := hf.sharesProvider
  refine ⟨fun bindings bindings' => isIndifferent_of_forall hshares, fun lib s actions h => ?_⟩
  refine isIndifferent_of_forall hshares fun name hname => ?_
  exact (Session.bindings_run fun a ha => h a ha name hname).symm

/-- What `(b)` comes to is the same where every other name is bound as well, and after `c` has been
bound twice and `d` unbound, and after another provider has bound `b`. -/
theorem Formula.isIndifferent_of_references_group :
    ∃ f : Formula, f.Made ∧ f.source = "(b)" ∧ f.references = ["b"] ∧
      f.IsIndifferent (fun _ name => if name = "b" then some 2.0 else none)
        (fun _ _ => some 2.0) ∧
      f.value .system ((Session.ofTables fun _ => .ofBindings [("b", 2.0)]).run .system
        [.bind f.provider "c" 7.0, .unbind f.provider "d", .bind f.provider "c" 8.0,
          .bind ⟨1⟩ "b" 9.0]).bindings = .ok 2.0 := by
  have hb : parse .sole "b" = .ok ⟨[.reference "b"], [.reference "b"]⟩ :=
    parse_name (show Text.visible "b" = ['b'] by decide) rfl (by simp) (by decide)
  let group : Token := .group "b" .sole "b" [.reference "b"] [.reference "b"]
  have hparse : parse .sole "(b)" = .ok ⟨[group], [group]⟩ := by
    have hparens := parse_parens (t := "b") rfl (by decide) .sole
    rw [hb] at hparens
    exact hparens
  let f : Formula := ⟨"f", .sole, "(b)", [group], [group], none⟩
  have hreferences : f.references = ["b"] := references_group
  have hmade : f.Made := .of_parse "f" hparse
  obtain ⟨hagree, hrun⟩ := isIndifferent_of_references hmade
  refine ⟨f, hmade, rfl, hreferences, hagree _ _ ?_, ?_⟩
  · rw [hreferences]
    intro name hname
    rw [if_pos (List.mem_singleton.mp hname)]
  · rw [← (hrun .system _ _ ?_).value_eq]
    · rfl
    · rw [hreferences]
      decide

end Formulary
