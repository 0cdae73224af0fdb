import Formulary.Proofs.Results

/-!
# Binding one value after another

A run keeps one table. Each formula is evaluated in the table as it is at that time, and its value,
if it has one, is bound to its name before the next formula is evaluated. Nothing is ever unbound,
and a formula without a value leaves the binding that its name may have from elsewhere.

As long as every formula comes after those that it refers to, the table is as good as the meaning of
the formulas: it has the results of those that have been evaluated, and no formula looks at the
others. So the table at any time is the environment of the results so far, and what becomes of each
formula is told by the results.

## Main definitions

* `Tells` — what becomes of a formula with a given result in a given environment
* `tableAfter` — the table after some formulas have been evaluated
* `formulaAt` — the formula at a place
* `Ordered` — whether formulas come after those that they refer to
* `Results.upTo` — the results so far

## Main results

* `tells_outcomeOf` — what becomes of a formula is told by its value in the table
* `environment_tableAfter` — the table is the environment of the results so far
-/

namespace Formulary

namespace Table

/-- The last binding of a name counts. -/
theorem get?_ofBindings (bindings : List (String × Float)) (name : String) :
    (ofBindings bindings).get? name = bindings.reverse.lookup name := by
  induction bindings using List.reverseRecOn with
  | nil => rfl
  | append_singleton bindings b ih =>
    obtain ⟨n, v⟩ := b
    rw [ofBindings, List.foldl_append, List.foldl_cons, List.foldl_nil, ← ofBindings, get?_insert,
      ih, List.reverse_append, List.reverse_singleton, List.singleton_append, List.lookup_cons]
    by_cases hname : name = n
    · simp [hname]
    · simp [hname, beq_false_of_ne hname]

end Table

namespace CommandLine

variable {lib : MathLibrary} {defines : List (String × Float)} {texts : List String}
  {results : Results}

/-! ### What becomes of one formula -/

/-- What becomes of a formula that has the given result in an environment. The first case that
applies is that it has a value, in which case nothing is unbound; the second is that names are
unbound. -/
structure Tells (env : Environment) (program : List Token) (result : Except EvalError Float)
    (outcome : Outcome) : Prop where
  /-- It gives a number or a truth value. -/
  classified : ∃ comparison, isComparison program = .ok comparison
  value : ∀ comparison v, outcome = .value comparison v ↔
    result = .ok v ∧ isComparison program = .ok comparison
  unresolved : ∀ names, outcome = .unresolved names ↔
    names = Formulary.unresolved env program ∧ names ≠ []
  failed : ∀ cause, outcome = .failed cause ↔
    result = .error cause ∧ Formulary.unresolved env program = []

theorem Tells.congr {env env' : Environment} {program : List Token}
    {result : Except EvalError Float} {outcome : Outcome} (h : Tells env program result outcome)
    (henv : ∀ name ∈ references program, env name = env' name) :
    Tells env' program result outcome := by
  obtain ⟨hclassified, hvalue, hunresolved, hfailed⟩ := h
  rw [unresolved_congr henv] at hunresolved hfailed
  exact ⟨hclassified, hvalue, hunresolved, hfailed⟩

/-- There is a value among the outcomes exactly if there is one. -/
theorem Tells.isValue_iff {env : Environment} {program : List Token}
    {result : Except EvalError Float} {outcome : Outcome} (h : Tells env program result outcome) :
    outcome.isValue = true ↔ ∃ v, result = .ok v := by
  obtain ⟨comparison, hcomparison⟩ := h.classified
  constructor
  · intro hvalue
    cases outcome with
    | value comparison v => exact ⟨v, ((h.value comparison v).mp rfl).1⟩
    | unresolved names => cases hvalue
    | failed cause => cases hvalue
  · rintro ⟨v, rfl⟩
    rw [(h.value comparison v).mpr ⟨rfl, hcomparison⟩]
    rfl

section Outcomes

variable {f : Formula} (hf : checkShape f.program = .ok ())
  (hshares : SharesProvider f.provider f.program)

include hf

theorem snd_update (bindings : Bindings) :
    (f.update lib bindings).2 = valueOf lib (f.environment bindings) f.program := by
  rw [Formula.update_eq, Formula.value_of_checkShape hf]

/-- A formula that fails although no name is missing. -/
theorem outcomeOf_of_failed {table : Table} {e : EvalError}
    (hmissing : Formulary.unresolved (f.environment table.bindings) f.program = [])
    (hvalue : valueOf lib (f.environment table.bindings) f.program = .error e) :
    outcomeOf lib table f = .failed e := by
  have hvalid : f.validate table.bindings = true := List.isEmpty_iff.mpr hmissing
  rw [outcomeOf, if_pos hvalid, snd_update hf, hvalue]

include hshares in
/-- A formula with a value, which misses no name. -/
theorem outcomeOf_of_value {table : Table} {v : Float} {comparison : Bool}
    (hvalue : valueOf lib (f.environment table.bindings) f.program = .ok v)
    (hcomparison : isComparison f.program = .ok comparison) :
    outcomeOf lib table f = .value comparison v := by
  have hvalid : f.validate table.bindings = true :=
    List.isEmpty_iff.mpr (unresolved_eq_nil_of_valueOf hshares hvalue)
  rw [outcomeOf, if_pos hvalid, snd_update hf, hvalue, Formula.isComparison,
    Formula.whenGenerated_of_checkShape hf, hcomparison]
  rfl

omit hf in
theorem outcomeOf_of_unresolved {table : Table}
    (hmissing : Formulary.unresolved (f.environment table.bindings) f.program ≠ []) :
    outcomeOf lib table f
      = .unresolved (Formulary.unresolved (f.environment table.bindings) f.program) := by
  have hvalid : ¬ f.validate table.bindings = true :=
    fun h => hmissing (List.isEmpty_iff.mp h)
  rw [outcomeOf, if_neg hvalid]
  rfl

include hshares in
/-- **Outcomes are told by values.** What becomes of a formula is told by its value in the table. -/
theorem tells_outcomeOf (table : Table) :
    Tells (f.environment table.bindings) f.program
      (valueOf lib (f.environment table.bindings) f.program) (outcomeOf lib table f) := by
  obtain ⟨comparison, hcomparison⟩ := exists_isComparison hf
  by_cases hmissing : Formulary.unresolved (f.environment table.bindings) f.program = []
  · cases hvalue : valueOf lib (f.environment table.bindings) f.program with
    | error e =>
      refine ⟨⟨comparison, hcomparison⟩, ?_, ?_, ?_⟩ <;>
        rw [outcomeOf_of_failed hf hmissing hvalue] <;> simp [hmissing, eq_comm]
    | ok v =>
      refine ⟨⟨comparison, hcomparison⟩, ?_, ?_, ?_⟩ <;>
        rw [outcomeOf_of_value hf hshares hvalue hcomparison] <;>
        simp [hmissing, hcomparison, and_comm]
  · have hnovalue : ∀ v, valueOf lib (f.environment table.bindings) f.program ≠ .ok v :=
      fun v h => hmissing (unresolved_eq_nil_of_valueOf hshares h)
    refine ⟨⟨comparison, hcomparison⟩, ?_, ?_, ?_⟩ <;> rw [outcomeOf_of_unresolved hmissing]
    · simp [hnovalue]
    · intro names
      constructor
      · rintro ⟨⟩
        exact ⟨rfl, hmissing⟩
      · rintro ⟨rfl, -⟩
        rfl
    · simp [hmissing]

end Outcomes

/-! ### The table -/

/-- The table after formulas have been evaluated and their values bound, one after another. -/
def tableAfter (lib : MathLibrary) (table : Table) : List Formula → Table
  | [] => table
  | f :: rest => tableAfter lib ((outcomeOf lib table f).publish f table) rest

theorem tableAfter_append (table : Table) (fs gs : List Formula) :
    tableAfter lib table (fs ++ gs) = tableAfter lib (tableAfter lib table fs) gs := by
  induction fs generalizing table with
  | nil => rfl
  | cons f fs ih => exact ih _

/-- A value is bound to the name of its formula, and nothing else changes. -/
theorem get?_publish {env : Environment} {program : List Token} {result : Except EvalError Float}
    {outcome : Outcome} (h : Tells env program result outcome) (f : Formula) (table : Table)
    (name : String) :
    (outcome.publish f table).get? name =
      if name = f.name then result.toOption.or (table.get? name) else table.get? name := by
  obtain ⟨comparison, hcomparison⟩ := h.classified
  cases result with
  | ok v =>
    rw [(h.value comparison v).mpr ⟨rfl, hcomparison⟩]
    exact Table.get?_insert table f.name v name
  | error e =>
    have hpublish : outcome.publish f table = table := by
      cases outcome with
      | value comparison v => cases ((h.value comparison v).mp rfl).1
      | unresolved names => rfl
      | failed cause => rfl
    rw [hpublish]
    exact (ite_self _).symm

/-! ### The formulas of a run -/

/-- The formula at a place, generated if its text is one. -/
def formulaAt (texts : List String) (i : Nat) : Formula :=
  (Formula.ofText (nameAt i) .sole (texts.getD i "")).generate.1

@[simp] theorem name_formulaAt (texts : List String) (i : Nat) :
    (formulaAt texts i).name = nameAt i := by
  rw [formulaAt, Formula.generate]
  split <;> rfl

@[simp] theorem provider_formulaAt (texts : List String) (i : Nat) :
    (formulaAt texts i).provider = .sole := by
  rw [formulaAt, Formula.generate]
  split <;> rfl

theorem environment_formulaAt (texts : List String) (i : Nat) (table : Table) :
    (formulaAt texts i).environment table.bindings = table.environment := by
  rw [Formula.environment, provider_formulaAt]
  rfl

theorem sharesProvider_formulaAt (texts : List String) (i : Nat) :
    (formulaAt texts i).SharesProvider :=
  (Formula.Made.ofText (nameAt i) .sole (texts.getD i "")).generate.sharesProvider

theorem title_formulaAt (texts : List String) (i : Nat) :
    (formulaAt texts i).title = nameAt i ++ ": " ++ texts.getD i "" := by
  rw [formulaAt, Formula.generate]
  split <;> rfl

theorem program_formulaAt {i : Nat} {p : Parsed} (h : parsedAt? texts i = some p) :
    (formulaAt texts i).program = p.program := by
  rw [formulaAt, Formula.generate, Formula.ofText, parse_getD_of_parsedAt? h]

theorem checkShape_formulaAt {i : Nat} {p : Parsed} (h : parsedAt? texts i = some p) :
    checkShape (formulaAt texts i).program = .ok () := by
  rw [program_formulaAt h]
  exact checkShape_of_parsedAt? h

/-- Formulas that come after those that they refer to. -/
structure Ordered (texts : List String) (order : List Nat) : Prop where
  nodup : order.Nodup
  isFormula : ∀ i ∈ order, (parsedAt? texts i).isSome
  refers : ∀ {before i after}, order = before ++ i :: after → ∀ j, Refers texts i j → j ∈ before

theorem Ordered.of_append {order rest : List Nat} (h : Ordered texts (order ++ rest)) :
    Ordered texts order where
  nodup := (List.nodup_append.mp h.nodup).1
  isFormula i hi := h.isFormula i (List.mem_append_left _ hi)
  refers := by
    intro before i after heq
    exact h.refers (by rw [heq, List.append_assoc, List.cons_append])

/-- The results of some formulas, as if the others had none. -/
def Results.upTo (results : Results) (order : List Nat) : Results :=
  fun i => if i ∈ order then results i else none

/-- The results so far are all that a formula looks at when it comes after those that it refers
to. -/
theorem environmentOf_upTo (hmeaning : IsMeaning lib defines texts results)
    {before after : List Nat} {i : Nat} (horder : Ordered texts (before ++ i :: after)) {p : Parsed}
    (hp : parsedAt? texts i = some p) {name : String} (hname : name ∈ references p.program) :
    environmentOf defines texts.length (results.upTo before) name
      = environmentOf defines texts.length results name := by
  refine environmentOf_congr ?_
  rintro j hj rfl
  rw [Results.value?, Results.value?, Results.upTo]
  by_cases hbefore : j ∈ before
  · rw [if_pos hbefore]
  · have hnone : parsedAt? texts j = none := by
      by_contra hsome
      refine hbefore (horder.refers rfl j ⟨⟨hj, p, hp, hname⟩, ?_⟩)
      exact Option.isSome_iff_ne_none.mpr hsome
    rw [if_neg hbefore, hmeaning j, hnone]
    rfl

/-- One more result binds its name if it is a value. -/
theorem environmentOf_upTo_append {before : List Nat} {i count : Nat} (hi : i < count)
    (hbefore : i ∉ before) {result : Except EvalError Float} (hresult : results i = some result)
    (name : String) :
    environmentOf defines count (results.upTo (before ++ [i])) name =
      if name = nameAt i then
        result.toOption.or (environmentOf defines count (results.upTo before) name)
      else environmentOf defines count (results.upTo before) name := by
  by_cases hname : name = nameAt i
  · subst hname
    rw [if_pos rfl, environmentOf_nameAt hi, environmentOf_nameAt hi]
    simp [Results.value?, Results.upTo, hbefore, hresult]
  · rw [if_neg hname]
    refine environmentOf_congr ?_
    rintro j - rfl
    have hji : j ≠ i := fun h => hname (h ▸ rfl)
    simp [Results.value?, Results.upTo, hji]

/-- **One step.** A formula that is evaluated where the table is the environment of the results so
far has its result, and what becomes of it is told by its result. -/
theorem tells_step (hmeaning : IsMeaning lib defines texts results) {table : Table}
    {before after : List Nat} {i : Nat} (horder : Ordered texts (before ++ i :: after))
    (htable : table.environment = environmentOf defines texts.length (results.upTo before))
    {p : Parsed} (hp : parsedAt? texts i = some p) :
    ∃ result, results i = some result ∧
      Tells (environmentOf defines texts.length results) p.program result
        (outcomeOf lib table (formulaAt texts i)) := by
  have henv : ∀ name ∈ references p.program,
      table.environment name = environmentOf defines texts.length results name := by
    intro name hname
    rw [htable, environmentOf_upTo hmeaning horder hp hname]
  have hprogram := program_formulaAt hp
  refine ⟨valueOf lib (environmentOf defines texts.length results) p.program, ?_, ?_⟩
  · rw [hmeaning i, hp, Option.map_some]
  · have hvalue : valueOf lib table.environment p.program
        = valueOf lib (environmentOf defines texts.length results) p.program :=
      valueOf_congr (sharesProvider_of_parsedAt? hp) rfl henv
    rw [← hvalue, ← hprogram, ← environment_formulaAt texts i]
    rw [← hprogram, ← environment_formulaAt texts i] at henv
    exact (tells_outcomeOf (checkShape_formulaAt hp)
      (sharesProvider_formulaAt texts i).program table).congr henv

/-- A table is an environment if it binds every name to the same. -/
theorem environment_eq_environmentOf {table : Table}
    (h : ∀ name, table.get? name = environmentOf defines texts.length results name) :
    table.environment = environmentOf defines texts.length results :=
  congrArg Environment.ofLookup (funext h)

/-- **The table is the environment of the results so far.** -/
theorem environment_tableAfter (hmeaning : IsMeaning lib defines texts results) {order : List Nat}
    (horder : Ordered texts order) :
    (tableAfter lib (.ofBindings defines) (order.map (formulaAt texts))).environment
      = environmentOf defines texts.length (results.upTo order) := by
  induction order using List.reverseRecOn with
  | nil =>
    refine environment_eq_environmentOf fun name => ?_
    rw [environmentOf_of_value?_eq_none fun i _ _ => rfl]
    exact Table.get?_ofBindings defines name
  | append_singleton before i ih =>
    have htable := ih horder.of_append
    obtain ⟨p, hp⟩ := Option.isSome_iff_exists.mp (horder.isFormula i (by simp))
    obtain ⟨result, hresult, htells⟩ := tells_step hmeaning horder htable hp
    have hi : i ∉ before := (List.nodup_append_comm.mp horder.nodup).notMem
    refine environment_eq_environmentOf fun name => ?_
    rw [List.map_append, tableAfter_append,
      environmentOf_upTo_append (lt_length_of_parsedAt? hp) hi hresult, ← htable,
      ← name_formulaAt texts i]
    exact get?_publish htells _ _ name

end CommandLine

end Formulary
