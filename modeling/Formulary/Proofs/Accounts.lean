import Formulary.Proofs.Components
import Formulary.Proofs.Flags
import Formulary.Proofs.Lines

/-!
# Every text is accounted for

A run is given texts, and its user is told of each of them once. The texts that are no formulas are
complained about first, in their order. If some of the others refer to each other in a circle, one
more complaint names these, and that is all. Otherwise each of the others is evaluated, and what has
become of it is told, in the order of evaluation. So a text is told of by a complaint of its own, by
what has become of it, or by the one complaint about circles, and in one line each time. A run
succeeds if all its texts have values.

Formulas are generated and evaluated beside a log, which is kept or not. What is told does not
depend on it: records are written between the lines, and nothing is decided by them.

## Main definitions

* `CommandLine.AccountsInOrder` — how formulas are accounted for that are evaluated in an order
* `CommandLine.Accounts` — how texts are accounted for

## Main results

* `CommandLine.exists_circle` — what is reported of formulas that refer to each other in a circle
* `CommandLine.run_accounts` — a run accounts for its texts, whatever is logged
-/

namespace Formulary

namespace CommandLine

open Relation Text

variable {lib : MathLibrary} {texts : List String}

/-! ### Circles -/

/-- One formula depends on another one by number, through one or more steps, exactly when it refers
to it so. -/
theorem transGen_needs_iff_refers {a b i j : Nat} (ha : (places texts)[a]? = some i)
    (hb : (places texts)[b]? = some j) :
    TransGen (dependencies ((places texts).map (formulaAt texts))).Needs a b ↔
      TransGen (Refers texts) i j := by
  constructor
  · intro h
    have hlift : TransGen (Refers texts) (placeOf texts a) (placeOf texts b) :=
      h.lift (placeOf texts) fun _ _ => refers_of_needs
    rwa [placeOf_eq ha, placeOf_eq hb] at hlift
  · intro h
    induction h generalizing b with
    | single hij => exact .single ((needs_iff_refers ha hb).mpr hij)
    | tail hik hkj ih =>
      obtain ⟨_, -, hk⟩ := TransGen.tail'_iff.mp hik
      obtain ⟨c, hc⟩ := List.mem_iff_getElem?.mp (mem_places.mpr hk.2)
      exact (ih hc).tail ((needs_iff_refers hc hb).mpr hkj)

theorem pairwise_places (texts : List String) : (places texts).Pairwise (· < ·) :=
  List.pairwise_lt_range.filter _

theorem isGenerated_of_mem_places {f : Formula} (hf : f ∈ (places texts).map (formulaAt texts)) :
    f.IsGenerated := by
  obtain ⟨i, hi, rfl⟩ := List.mem_map.mp hf
  obtain ⟨p, hp⟩ := Option.isSome_iff_exists.mp (mem_places.mp hi)
  have hparse := parse_getD_of_parsedAt? hp
  rw [formulaAt, Formula.generate_of_parse hparse]
  exact hparse

/-- **Circles are reported**: all formulas that refer to themselves, through others or not, from the
left to the right. -/
theorem exists_circle (hcyclic : ∃ i, TransGen (Refers texts) i i) :
    ∃ circle : List Nat, circle.Pairwise (· < ·) ∧
      (∀ i, i ∈ circle ↔ TransGen (Refers texts) i i) ∧
      evaluationOrder ((places texts).map (formulaAt texts))
        = .error (.cycle (circle.map nameAt)) := by
  let formulas := (places texts).map (formulaAt texts)
  let members := (List.range formulas.length).filter (dependencies formulas).onCycle
  have hlt : ∀ a ∈ members, a < (places texts).length := by
    intro a ha
    simpa [formulas] using (List.mem_filter.mp ha).1
  have hmem : ∀ i, i ∈ members.map (placeOf texts) ↔ TransGen (Refers texts) i i := by
    intro i
    rw [List.mem_map]
    constructor
    · rintro ⟨a, ha, rfl⟩
      have hplace := getElem?_places (hlt a ha)
      rw [← transGen_needs_iff_refers hplace hplace, transGen_needs_iff]
      exact mem_filter_onCycle_iff.mp ha
    · intro hi
      obtain ⟨_, -, hlast⟩ := TransGen.tail'_iff.mp hi
      obtain ⟨a, ha⟩ := List.mem_iff_getElem?.mp (mem_places.mpr hlast.2)
      rw [← transGen_needs_iff_refers ha ha, transGen_needs_iff] at hi
      exact ⟨a, mem_filter_onCycle_iff.mpr hi, placeOf_eq ha⟩
  refine ⟨members.map (placeOf texts), ?_, hmem, ?_⟩
  · have hsublist : (members.map (placeOf texts)).Sublist (places texts) := by
      rw [← map_placeOf_range texts]
      refine List.Sublist.map _ ?_
      simp [members, formulas]
    exact (pairwise_places texts).sublist hsublist
  · refine (evaluationOrder_eq_cycle_iff_of_members (fun _ => isGenerated_of_mem_places)
      (List.pairwise_lt_range.filter _) fun a => mem_filter_onCycle_iff).mpr ⟨?_, ?_⟩
    · obtain ⟨i, hi⟩ := hcyclic
      exact List.ne_nil_of_mem (List.mem_map_of_mem ((hmem i).mpr hi))
    · rw [List.map_map, List.map_map]
      refine List.map_congr_left fun a ha => ?_
      rw [nameOf?, List.getElem?_map, getElem?_places (hlt a ha)]
      exact congrArg some (name_formulaAt texts _)

/-! ### Accounts -/

/-- How a run accounts for texts whose formulas are evaluated in an order: by the complaints and the
lines that explain what it tells, and by how it exits. -/
structure AccountsInOrder (lib : MathLibrary) (defines : List (String × Float))
    (texts : List String) (results : Results) (order : List Nat) (lines : Nat → Event)
    (r : Report) : Prop extends Explains lib defines texts results order lines r.told where
  /-- The run succeeds if it tells a value of every text. -/
  exit_eq_zero_iff : r.exit = 0 ↔ ∀ i < texts.length,
    ∃ shown, .out (titleAt texts i ++ " = " ++ shown) ∈ r.told
  /-- This is so if every text has a value. -/
  exit_eq_zero_iff_value : r.exit = 0 ↔ ∀ i < texts.length, ∃ v, results i = some (.ok v)

/-- How a run accounts for its texts. -/
structure Accounts (lib : MathLibrary) (defines : List (String × Float)) (texts : List String)
    (r : Report) : Prop where
  /-- There is a complaint about each text that is no formula. -/
  complaint_iff : ∀ i < texts.length, (complaintAt? texts i).isSome ↔ parsedAt? texts i = none
  /-- Formulas that refer to themselves are named in one more complaint, and that is all. -/
  circle : (∃ i, TransGen (Refers texts) i i) →
    ∃ circle : List Nat, circle.Pairwise (· < ·) ∧
      (∀ i, i ∈ circle ↔ TransGen (Refers texts) i i) ∧
      r.told = (List.range texts.length).filterMap (complaintAt? texts)
        ++ [.err ("Dependency cycle between expressions: "
          ++ String.intercalate ", " (circle.map nameAt))] ∧
      r.results = [] ∧ r.exit = 1
  /-- Otherwise formulas are evaluated in the order of evaluation. -/
  inOrder : (∀ i, ¬ TransGen (Refers texts) i i) →
    ∃ numbers results lines, evaluationOrder ((places texts).map (formulaAt texts)) = .ok numbers ∧
      IsMeaning lib defines texts results ∧
      AccountsInOrder lib defines texts results (numbers.map (placeOf texts)) lines r
  /-- There are two ways to exit. -/
  exit_le : r.exit ≤ 1
  /-- Whatever is told is one line, and so are the lines as they are written. -/
  isLine : ∀ event ∈ r.told, IsLine event.text
  cutLines_results : cutLines (written r.results) = r.results.map String.toList ++ [[]]
  cutLines_complaints : cutLines (written r.complaints) = r.complaints.map String.toList ++ [[]]

/-! ### Runs -/

theorem isSome_complaintAt?_iff {i : Nat} (hi : i < texts.length) :
    (complaintAt? texts i).isSome ↔ parsedAt? texts i = none := by
  rw [complaintAt?, parsedAt?_eq_toOption hi]
  cases parse .sole (texts.getD i "") <;> simp [Except.toOption]

section Texts

variable (lib) (o : Options) (level : Threshold)

/-- A run where formulas refer to each other in a circle. -/
theorem told_of_circle (hcyclic : ∃ i, TransGen (Refers texts) i i) :
    ∃ circle : List Nat, circle.Pairwise (· < ·) ∧
      (∀ i, i ∈ circle ↔ TransGen (Refers texts) i i) ∧
      (runTexts lib o level texts).told = (List.range texts.length).filterMap (complaintAt? texts)
        ++ [.err ("Dependency cycle between expressions: "
          ++ String.intercalate ", " (circle.map nameAt))] ∧
      (runTexts lib o level texts).results = [] ∧
      (runTexts lib o level texts).exit = 1 := by
  obtain ⟨circle, hsorted, hmem, hreported⟩ := exists_circle hcyclic
  obtain ⟨htold, hexit⟩ := told_and_exit_runTexts lib o level texts
  rw [answersTo, hreported] at htold hexit
  refine ⟨circle, hsorted, hmem, htold, ?_, ?_⟩
  · rw [Report.results_eq, htold, List.filterMap_append, List.append_eq_nil_iff]
    refine ⟨List.filterMap_eq_nil_iff.mpr fun event hevent => ?_, rfl⟩
    obtain ⟨i, -, hcomplaint⟩ := List.mem_filterMap.mp hevent
    rw [complaintAt?] at hcomplaint
    split at hcomplaint <;> cases hcomplaint
    rfl
  · simpa [Except.map, allValues] using hexit

/-- A run without circles. -/
theorem accountsInOrder (hacyclic : ∀ i, ¬ TransGen (Refers texts) i i) :
    ∃ numbers results lines, evaluationOrder ((places texts).map (formulaAt texts)) = .ok numbers ∧
      IsMeaning lib o.defines texts results ∧
      AccountsInOrder lib o.defines texts results (numbers.map (placeOf texts)) lines
        (runTexts lib o level texts) := by
  obtain ⟨results, hmeaning, -⟩ := existsUnique_isMeaning lib o.defines hacyclic
  obtain ⟨numbers, hnumbers, hlt, horder, hmem⟩ := ordered_places hacyclic
  have hexplains := explains_runTexts o level hmeaning hnumbers hlt horder hmem
  have hexit : (runTexts lib o level texts).exit = 0 ↔
      (∀ i < texts.length, (parsedAt? texts i).isSome) ∧ ∀ i ∈ numbers.map (placeOf texts),
        (outcomeIn lib o.defines texts (numbers.map (placeOf texts)) i).isValue = true := by
    rw [(told_and_exit_runTexts lib o level texts).2,
      answersTo_eq lib o.defines hnumbers hlt horder.nodup, allValues, List.all_map]
    simp
  have hvalue : ∀ i ∈ numbers.map (placeOf texts),
      ((outcomeIn lib o.defines texts (numbers.map (placeOf texts)) i).isValue = true ↔
        ∃ v, results i = some (.ok v)) := by
    intro i hi
    obtain ⟨p, hp⟩ := Option.isSome_iff_exists.mp ((hmem i).mp hi)
    obtain ⟨result, hresult, htells⟩ := tells_outcomeIn hmeaning horder hi hp
    simp only [htells.isValue_iff, hresult, Option.some.injEq]
  have hvalues : (runTexts lib o level texts).exit = 0 ↔
      ∀ i < texts.length, ∃ v, results i = some (.ok v) := by
    rw [hexit]
    constructor
    · rintro ⟨hparsed, hall⟩ i hi
      have hplace := (hmem i).mpr (hparsed i hi)
      exact (hvalue i hplace).mp (hall i hplace)
    · intro h
      refine ⟨fun i hi => ?_, fun i hi => (hvalue i hi).mpr (h i ?_)⟩
      · obtain ⟨v, hv⟩ := h i hi
        exact Option.isSome_iff_exists.mpr (hmeaning.exists_parsedAt? hv)
      · obtain ⟨p, hp⟩ := Option.isSome_iff_exists.mp ((hmem i).mp hi)
        exact lt_length_of_parsedAt? hp
  refine ⟨numbers, results, _, hnumbers, hmeaning, hexplains, ?_, hvalues⟩
  rw [hvalues]
  refine forall₂_congr fun i hi => ⟨?_, ?_⟩
  · rintro ⟨v, hv⟩
    obtain ⟨p, hp⟩ := hmeaning.exists_parsedAt? hv
    exact (hexplains.value_iff hp).mpr ⟨v, hv⟩
  · rintro ⟨shown, hmem⟩
    obtain ⟨p, hp⟩ := hexplains.exists_parsedAt? (String.append_assoc .. ▸ hmem)
    exact (hexplains.value_iff hp).mp ⟨shown, hmem⟩

/-- What a run tells is told in lines. -/
theorem isLine_of_mem_told (hlines : ∀ text ∈ texts, IsLine text) :
    ∀ event ∈ (runTexts lib o level texts).told, IsLine event.text := by
  intro event hevent
  have hcomplaint : event ∈ (List.range texts.length).filterMap (complaintAt? texts) →
      IsLine event.text := by
    intro h
    obtain ⟨i, -, hi⟩ := List.mem_filterMap.mp h
    exact isLine_complaintAt? hlines hi
  by_cases hcyclic : ∃ i, TransGen (Refers texts) i i
  · obtain ⟨circle, -, -, htold, -⟩ := told_of_circle lib o level hcyclic
    rw [htold] at hevent
    rcases List.mem_append.mp hevent with h | h
    · exact hcomplaint h
    · obtain rfl := List.mem_singleton.mp h
      have hmessage : IsLine (EvalError.cycle (circle.map nameAt)).message := by
        refine EvalError.isLine_message fun name hname => ?_
        obtain ⟨i, -, rfl⟩ := List.mem_map.mp hname
        exact isLine_nameAt i
      exact hmessage
  · obtain ⟨numbers, results, lines, -, -, haccounts⟩ :=
      accountsInOrder lib o level (not_exists.mp hcyclic)
    rw [haccounts.told_eq] at hevent
    rcases List.mem_append.mp hevent with h | h
    · exact hcomplaint h
    · obtain ⟨i, hi, rfl⟩ := List.mem_map.mp h
      obtain ⟨p, hp⟩ := Option.isSome_iff_exists.mp ((haccounts.mem_iff i).mp hi)
      obtain ⟨before, after, horder⟩ := List.append_of_mem hi
      rw [(haccounts.sees before i after p horder hp).1]
      exact isLine_event hlines hp lib _

theorem accounts_runTexts (hlines : ∀ text ∈ texts, IsLine text) :
    Accounts lib o.defines texts (runTexts lib o level texts) where
  complaint_iff _ := isSome_complaintAt?_iff
  circle := told_of_circle lib o level
  inOrder := accountsInOrder lib o level
  exit_le := by
    rw [(told_and_exit_runTexts lib o level texts).2]
    split <;> omega
  isLine := isLine_of_mem_told lib o level hlines
  cutLines_results := cutLines_written fun _ hline =>
    isLine_of_mem_told lib o level hlines _ (Report.mem_told_of_mem_results hline)
  cutLines_complaints := cutLines_written fun _ hline =>
    isLine_of_mem_told lib o level hlines _ (Report.mem_told_of_mem_complaints hline)

end Texts

/-- **Every text is accounted for.** A run on texts of one line each, taken from the arguments or
from a file that can be read, complains about each text that is no formula, in the order of the
texts and before it tells of anything else. If formulas refer to each other in a circle it names
them in one more complaint, gives no results and exits with one. Otherwise each formula is told of
once, in the order of evaluation: by a value or by the names that are not bound, as a result, or by
a complaint. It exits with zero exactly if all texts have values. Everything is told in lines.

Nothing of this depends on what is logged: on whether tokens are shown, on whether the log is
verbose, and on the filter. Any of the two flags can be put before arguments without them. -/
theorem run_accounts (lib : MathLibrary) {readFile : String → Except ReadError String}
    {filter : Option String} {arguments : List String} {o : Options}
    (ho : parseArguments arguments = .ok o) (htexts : textsOf readFile o = .ok texts)
    (hlines : ∀ text ∈ texts, IsLine text) :
    Accounts lib o.defines texts (run lib readFile filter arguments) ∧
      (∀ showTokens verbose filter' arguments',
        parseArguments arguments'
            = .ok { o with showTokens := showTokens, verbose := verbose } →
          let r := run lib readFile filter arguments
          let r' := run lib readFile filter' arguments'
          r'.told = r.told ∧ r'.results = r.results ∧ r'.complaints = r.complaints ∧
            r'.exit = r.exit) ∧
      (o.showTokens = false → o.verbose = false → ∀ showTokens verbose,
        parseArguments (flagArguments showTokens verbose ++ arguments)
          = .ok { o with showTokens := showTokens, verbose := verbose }) := by
  have hrun : run lib readFile filter arguments = runTexts lib o (threshold o filter) texts := by
    simp only [run, ho, htexts]
  rw [hrun]
  refine ⟨accounts_runTexts lib o _ hlines, fun showTokens verbose filter' arguments' ho' => ?_,
    parseArguments_flags ho⟩
  let o' : Options := { o with showTokens := showTokens, verbose := verbose }
  have htexts' : textsOf readFile o' = .ok texts := htexts
  have hrun' : run lib readFile filter' arguments'
      = runTexts lib o' (threshold o' filter') texts := by
    simp only [run, ho', o', htexts']
  rw [hrun']
  obtain ⟨htold, hexit⟩ := told_and_exit_runTexts lib o (threshold o filter) texts
  obtain ⟨htold', hexit'⟩ := told_and_exit_runTexts lib o' (threshold o' filter') texts
  have hsame := htold'.trans htold.symm
  refine ⟨hsame, ?_, ?_, hexit'.trans hexit.symm⟩
  · rw [Report.results_eq, hsame, ← Report.results_eq]
  · rw [Report.complaints_eq, hsame, ← Report.complaints_eq]

/-- A text that is no formula, one with a value and one whose name is not bound: the run fails, and
it tells the same when tokens are shown and everything is logged. -/
theorem run_accounts_logged : ∃ o,
    parseArguments ["-D", "a=1", "1+", "a", "b"] = .ok o ∧
      textsOf (fun _ => .ok "") o = .ok ["1+", "a", "b"] ∧
      (let r := run .system (fun _ => .ok "") none ["-D", "a=1", "1+", "a", "b"]
      Accounts .system o.defines ["1+", "a", "b"] r ∧
        r.told = [.err "expr1: 1+: Structure error: operator '+' is missing an operand",
          .out "expr2: a = 1", .out "expr3: b -> unresolved: b"] ∧
        r.results = ["expr2: a = 1", "expr3: b -> unresolved: b"] ∧ r.exit = 1 ∧
        let r' := run .system (fun _ => .ok "") (some "trace")
          ["--show", "--verbose", "-D", "a=1", "1+", "a", "b"]
        r'.told = r.told ∧ r'.exit = r.exit) := by
  let o : Options := { Options.none with defines := [("a", 1.0)], formulas := ["1+", "a", "b"] }
  have hoptions : parseArguments ["-D", "a=1", "1+", "a", "b"] = .ok o := rfl
  have htexts : textsOf (fun _ => .ok "") o = .ok ["1+", "a", "b"] := rfl
  have hrun : Accounts .system o.defines ["1+", "a", "b"]
      (run .system (fun _ => .ok "") none ["-D", "a=1", "1+", "a", "b"]) ∧ _ :=
    run_accounts .system hoptions htexts (by decide)
  obtain ⟨haccounts, hsame, hflags⟩ := hrun
  obtain ⟨hlogged, -, -, hsameExit⟩ := hsame true true (some "trace") _ (hflags rfl rfl true true)
  have hfirst : parse .sole "1+" = .error (.missingOperand .add) := by
    have hlexemes : lexemesOf "1+"
        = ⟨[.constant (.whole 1), .operator (.binary .add)], none⟩ := by decide +kernel
    rw [parse_eq, scan, hlexemes]
    rfl
  have hsecond : parse .sole "a" = .ok ⟨[.reference "a"], [.reference "a"]⟩ :=
    parse_name (show Text.visible "a" = ['a'] by decide) rfl (by simp) (by decide)
  have hthird : parse .sole "b" = .ok ⟨[.reference "b"], [.reference "b"]⟩ :=
    parse_name (show Text.visible "b" = ['b'] by decide) rfl (by simp) (by decide)
  have hrun : (run .system (fun _ => .ok "") none ["-D", "a=1", "1+", "a", "b"]).told
        = [.err "expr1: 1+: Structure error: operator '+' is missing an operand",
          .out "expr2: a = 1", .out "expr3: b -> unresolved: b"] ∧
      (run .system (fun _ => .ok "") none ["-D", "a=1", "1+", "a", "b"]).exit = 1 := by
    have hformulas : formulasOf ["1+", "a", "b"]
        = [.ofText "expr1" .sole "1+", .ofText "expr2" .sole "a", .ofText "expr3" .sole "b"] := rfl
    have hgenerateFirst := Formula.generate_of_parse_error (f := .ofText "expr1" .sole "1+") hfirst
    have hgenerateSecond := Formula.generate_of_parse (f := .ofText "expr2" .sole "a") hsecond
    have hgenerateThird := Formula.generate_of_parse (f := .ofText "expr3" .sole "b") hthird
    simp only [run, hoptions, htexts, runTexts, hformulas, List.map_cons, List.map_nil, generateOne,
      hgenerateFirst, hgenerateSecond, hgenerateThird]
    exact ⟨rfl, rfl⟩
  obtain ⟨htold, hexit⟩ := hrun
  refine ⟨o, hoptions, htexts, haccounts, htold, ?_, hexit, hlogged, hsameExit⟩
  rw [Report.results_eq, htold]
  rfl

end CommandLine

end Formulary
