import Formulary.Proofs.Generated
import Formulary.Proofs.Runs

/-!
# Truth values

A formula that compares is told by its last token, before anything is evaluated. If it has a value
at all, the value is a truth value: one for true and zero for false, the positive zero. What the
tokens before the last one are does not matter, nor what is on the stack before it is reached,
numbers or not. The last token puts its result on the stack, the result is all that may be left, and
a comparison has no other results. A comparison that was given a single operand has none.

So a run, which asks of a formula only whether it compares, and of its value only whether it is
zero, says `true (1)` or `false (0)` of every formula that compares, and nothing else.

## Main definitions

* `CommandLine.Shows` — the lines of results about a formula

## Main results

* `exists_truth_of_valueOf` — the value of a program that compares is a truth value
* `CommandLine.exists_shows_of_mem_results` — every line of results is about a formula of the run
* `CommandLine.one_or_zero_of_isComparison` — a program that compares gives one or zero, and a run
  shows these as truth values
-/

namespace Formulary

variable {lib : MathLibrary} {env : Environment}

/-! ### Operators that compare -/

/-- A comparison has no meaning before one operand. -/
theorem applyUnary_of_isComparison {symbol : Symbol} (h : symbol.isComparison = true) (x : Float) :
    applyUnary lib symbol x = .error (.unsupported symbol .unary) := by
  cases symbol <;> first | rfl | cases h

/-- A comparison of two operands gives a truth value. -/
theorem exists_applyBinary_eq_truth (lib : MathLibrary) {symbol : Symbol}
    (h : symbol.isComparison = true) (lhs rhs : Float) :
    ∃ b, applyBinary lib symbol lhs rhs = .ok (truth b) := by
  cases symbol <;> first | exact ⟨_, rfl⟩ | cases h

/-- What an operator that compares puts on the stack is a truth value. -/
theorem exists_truth_of_applyOperator {op : Operator} (hop : op.isComparison = true)
    {stack left : List Float} (h : applyOperator lib op stack = .ok left) :
    ∃ b rest, left = truth b :: rest := by
  obtain ⟨v, rest, rfl, ⟨x, -, hv⟩ | ⟨lhs, rhs, -, hv⟩⟩ := exists_of_applyOperator h
  · rw [applyUnary_of_isComparison hop] at hv
    cases hv
  · obtain ⟨b, hb⟩ := exists_applyBinary_eq_truth lib hop lhs rhs
    rw [hb] at hv
    cases hv
    exact ⟨b, rest, rfl⟩

/-- **Classification agrees with evaluation.** The value of a program that compares is a truth
value. -/
theorem exists_truth_of_valueOf {program : List Token} {v : Float}
    (hcomparison : isComparison program = .ok true) (hv : valueOf lib env program = .ok v) :
    ∃ b, v = truth b := by
  obtain ⟨init, op, rfl, -, hop⟩ := isComparison_eq_ok_true_iff.mp hcomparison
  rw [valueOf_eq_ok_iff, execute_append_eq_ok_iff] at hv
  obtain ⟨stack, -, hlast⟩ := hv
  rw [execute_singleton, Token.execute] at hlast
  obtain ⟨b, rest, hleft⟩ := exists_truth_of_applyOperator hop hlast
  exact ⟨b, (List.cons.inj hleft).1⟩

/-- Truth values are one and the positive zero. -/
theorem truth_eq_one_or_zero (b : Bool) : truth b = 1.0 ∨ truth b = 0.0 := by
  cases b with
  | true => exact .inl rfl
  | false => exact .inr rfl

namespace CommandLine

/-! ### Lines of results -/

/-- The lines of results about a formula that is evaluated in an environment. -/
inductive Shows (lib : MathLibrary) (bindings : Bindings) (f : Formula) : String → Prop where
  /-- The names without a binding. -/
  | unresolved (hmissing : f.unresolved bindings ≠ []) :
      Shows lib bindings f
        (f.title ++ " -> unresolved: " ++ String.intercalate ", " (f.unresolved bindings))
  /-- A truth value, of a formula that compares. -/
  | truth (b : Bool) (hcomparison : f.isComparison = .ok true)
      (hvalue : f.value lib bindings = .ok (truth b)) :
      Shows lib bindings f (f.title ++ " = " ++ if b then "true (1)" else "false (0)")
  /-- A number, of a formula that does not compare. -/
  | number (v : Float) (hcomparison : f.isComparison = .ok false)
      (hvalue : f.value lib bindings = .ok v) :
      Shows lib bindings f (f.title ++ " = " ++ Decimal.text v)

theorem truthText_truth (b : Bool) :
    Outcome.truthText (truth b) = if b then "true (1)" else "false (0)" := by
  cases b <;> rfl

/-- What becomes of a formula is shown by such a line, or is no result. -/
theorem shows_of_event {f : Formula} (hf : checkShape f.program = .ok ())
    (hshares : f.SharesProvider) {table : Table} {line : String}
    (h : (outcomeOf lib table f).event f = .out line) :
    Shows lib table.bindings f line := by
  have htells : Tells (f.environment table.bindings) f.program _ (outcomeOf lib table f) :=
    tells_outcomeOf hf hshares.program table
  have hvalue := Formula.value_of_checkShape hf lib table.bindings
  have hcomparison : f.isComparison = isComparison f.program :=
    Formula.whenGenerated_of_checkShape hf isComparison
  cases houtcome : outcomeOf lib table f with
  | unresolved names =>
    obtain ⟨rfl, hmissing⟩ := (htells.unresolved names).mp houtcome
    rw [houtcome] at h
    cases h
    exact .unresolved hmissing
  | failed cause =>
    rw [houtcome] at h
    cases h
  | value comparison v =>
    obtain ⟨hv, hc⟩ := (htells.value comparison v).mp houtcome
    rw [houtcome] at h
    cases h
    cases comparison with
    | false => exact .number v (hcomparison.trans hc) (hvalue.trans hv)
    | true =>
      obtain ⟨b, rfl⟩ := exists_truth_of_valueOf hc hv
      rw [if_pos rfl, truthText_truth]
      exact .truth b (hcomparison.trans hc) (hvalue.trans hv)

/-- What has become of one of several formulas has become of it in the table of its time. -/
theorem exists_outcomeOf_of_mem_evaluateAll {table : Table} {formulas : List Formula} {f : Formula}
    {outcome : Outcome} (h : (f, outcome) ∈ evaluateAll lib table formulas) :
    f ∈ formulas ∧ ∃ table', outcome = outcomeOf lib table' f := by
  induction formulas generalizing table with
  | nil => cases h
  | cons g rest ih =>
    rcases List.mem_cons.mp h with heq | h
    · cases heq
      exact ⟨List.mem_cons_self, table, rfl⟩
    · obtain ⟨hmem, houtcome⟩ := ih h
      exact ⟨List.mem_cons_of_mem g hmem, houtcome⟩

/-- A result that formulas give is about one of them. -/
theorem exists_shows_of_mem_eventsOf {defines : List (String × Float)} {texts : List String}
    {line : String} (h : .out line ∈ eventsOf (answersTo lib defines texts)) :
    ∃ i p bindings, parsedAt? texts i = some p ∧ Shows lib bindings (formulaAt texts i) line := by
  rw [answersTo] at h
  cases horder : evaluationOrder ((places texts).map (formulaAt texts)) with
  | error e =>
    rw [horder] at h
    cases List.mem_singleton.mp h
  | ok numbers =>
    rw [horder] at h
    obtain ⟨⟨f, outcome⟩, hmem, hline⟩ := List.mem_map.mp h
    obtain ⟨hordered, table, rfl⟩ := exists_outcomeOf_of_mem_evaluateAll hmem
    obtain ⟨a, -, hf⟩ := List.mem_filterMap.mp hordered
    obtain ⟨i, hi, rfl⟩ := List.mem_map.mp (List.mem_of_getElem? hf)
    obtain ⟨p, hp⟩ := Option.isSome_iff_exists.mp (mem_places.mp hi)
    exact ⟨i, p, _, hp, shows_of_event (checkShape_formulaAt hp)
      (sharesProvider_formulaAt texts i) hline⟩

/-- **Results are about formulas.** Every line of results of a run is about one of its formulas. -/
theorem exists_shows_of_mem_results {readFile : String → Except ReadError String}
    {filter : Option String} {arguments : List String} {o : Options} {texts : List String}
    (ho : parseArguments arguments = .ok o) (htexts : textsOf readFile o = .ok texts)
    {line : String} (hline : line ∈ (run lib readFile filter arguments).results) :
    ∃ i p bindings, parsedAt? texts i = some p ∧ Shows lib bindings (formulaAt texts i) line := by
  have htold := Report.mem_told_of_mem_results hline
  simp only [run, ho, htexts] at htold
  rw [(told_and_exit_runTexts lib o _ texts).1] at htold
  rcases List.mem_append.mp htold with hcomplaint | hanswer
  · obtain ⟨i, -, hi⟩ := List.mem_filterMap.mp hcomplaint
    rw [complaintAt?] at hi
    split at hi <;> cases hi
  · exact exists_shows_of_mem_eventsOf hanswer

/-- **Comparisons give truth values.** Whatever the tokens of a program and the values in it are, if
it compares and has a value, the value is one or the positive zero. So every line of results of a
run that gives the value of a formula that compares says `true (1)` or `false (0)`. -/
theorem one_or_zero_of_isComparison (lib : MathLibrary) :
    (∀ env program v, isComparison program = .ok true → valueOf lib env program = .ok v →
      v = 1.0 ∨ v = 0.0) ∧
    ∀ readFile filter arguments o texts, parseArguments arguments = .ok o →
      textsOf readFile o = .ok texts →
      ∀ line ∈ (run lib readFile filter arguments).results,
        ∃ i p bindings, parsedAt? texts i = some p ∧
          Shows lib bindings (formulaAt texts i) line := by
  constructor
  · intro env program v hcomparison hv
    obtain ⟨b, rfl⟩ := exists_truth_of_valueOf hcomparison hv
    exact truth_eq_one_or_zero b
  · intro readFile filter arguments o texts ho htexts line hline
    exact exists_shows_of_mem_results ho htexts hline

/-- What is not a number differs from itself: `x!=x` is one, and a run with `x=nan` says so. -/
theorem one_or_zero_of_isComparison_nan :
    (let program : List Token := [.reference "x", .reference "x", .operator (.binary .notEqual)]
    ∃ v, isComparison program = .ok true ∧
      valueOf .system (.ofLookup fun _ => some (0.0 / 0.0)) program = .ok v ∧ (v = 1.0 ∨ v = 0.0)) ∧
    (run .system (fun _ => .ok "") none ["-D", "x=nan", "x!=x"]).results
      = ["expr1: x!=x = true (1)"] ∧
    ∃ i p bindings, parsedAt? ["x!=x"] i = some p ∧
      Shows .system bindings (formulaAt ["x!=x"] i) "expr1: x!=x = true (1)" := by
  obtain ⟨hprograms, hruns⟩ := one_or_zero_of_isComparison .system
  let x : Name := ⟨'x', [], rfl, by simp, by decide⟩
  have hlexes : Lexes true (x.text ++ (Symbol.notEqual.text.toList ++ (x.text ++ [])))
      [.reference "x", .operator (.binary .notEqual), .reference "x"] :=
    .cons (.reference x rfl) (.cons (.binary rfl (by rintro ⟨⟩) (by rintro _ ⟨⟩))
      (.cons (.reference x rfl) (.nil _)))
  have hparse : parse .sole "x!=x" = .ok ⟨_, _⟩ :=
    parse_of_lexes hlexes (.cons rfl (.cons rfl (.cons rfl .nil))) rfl
  have hgenerate := Formula.generate_of_parse (f := .ofText "expr1" .sole "x!=x") hparse
  let o : Options := { Options.none with defines := [("x", 0.0 / 0.0)], formulas := ["x!=x"] }
  have hoptions : parseArguments ["-D", "x=nan", "x!=x"] = .ok o := rfl
  have htexts : textsOf (fun _ => .ok "") o = .ok ["x!=x"] := rfl
  have hresults : (run .system (fun _ => .ok "") none ["-D", "x=nan", "x!=x"]).results
      = ["expr1: x!=x = true (1)"] := by
    have hformulas : formulasOf ["x!=x"] = [.ofText "expr1" .sole "x!=x"] := rfl
    simp only [run, hoptions, htexts, runTexts, hformulas, List.map_cons, List.map_nil, generateOne,
      hgenerate]
    rfl
  refine ⟨?_, hresults, ?_⟩
  · intro program
    have hcomparison : isComparison program = .ok true := rfl
    have hvalue : valueOf .system (.ofLookup fun _ => some (0.0 / 0.0)) program = .ok 1.0 := rfl
    exact ⟨1.0, hcomparison, hvalue, hprograms _ _ _ hcomparison hvalue⟩
  · have hmem : "expr1: x!=x = true (1)"
        ∈ (run .system (fun _ => .ok "") none ["-D", "x=nan", "x!=x"]).results := by
      rw [hresults]
      exact List.mem_singleton_self _
    exact hruns (fun _ => .ok "") none _ o _ hoptions htexts _ hmem

end CommandLine

end Formulary
