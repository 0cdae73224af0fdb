import Formulary.Proofs.Nesting
import Formulary.Proofs.Reports
import Formulary.Proofs.Scheduling

/-!
# The meaning of a run

A run tells of every text that is no formula, and then, in the order of evaluation, of every formula
what becomes of it. Where no formula refers to itself this is what the formulas mean, which is told
without any order: the values that are told are the values of the one meaning that there is, and a
formula that refers to another one is evaluated where the name of the other one stands for its value
or, if it has none, for what the name is defined as.

Formulas are numbered by the places of their texts, and an order of evaluation is one of the
formulas that there are, numbered without the texts that are none. The names lead from one numbering
to the other.

## Main definitions

* `places`, `placeOf` — the places of the texts that are formulas, and the numbers of these
* `outcomeIn`, `answersTo` — what becomes of a formula in an order of evaluation, and of all of them
* `Explains` — whether an order and outcomes are those of the results and of what is told

## Main results

* `ordered_places` — an order of evaluation puts formulas after those that they refer to
* `evaluateAll_map` — what becomes of the formulas, one after another
* `told_and_exit_runTexts` — what a run tells, and how it exits, whatever is logged
* `run_explains` — what a run tells is what its formulas mean
-/

namespace Formulary

namespace CommandLine

open Relation

variable {lib : MathLibrary} {texts : List String}

/-! ### The formulas of a run -/

/-- The places of the texts that are formulas. -/
def places (texts : List String) : List Nat :=
  (List.range texts.length).filter fun i => (parsedAt? texts i).isSome

theorem mem_places {i : Nat} : i ∈ places texts ↔ (parsedAt? texts i).isSome := by
  rw [places, List.mem_filter, List.mem_range]
  refine and_iff_right_of_imp fun h => ?_
  obtain ⟨p, hp⟩ := Option.isSome_iff_exists.mp h
  exact lt_length_of_parsedAt? hp

theorem nodup_places (texts : List String) : (places texts).Nodup := List.nodup_range.filter _

theorem formulasOf_eq (texts : List String) :
    formulasOf texts
      = (List.range texts.length).map fun i => .ofText (nameAt i) .sole (texts.getD i "") := by
  refine List.ext_getElem (by simp [formulasOf]) fun i h h' => ?_
  have hi : i < texts.length := by simpa [formulasOf] using h
  simp [formulasOf, nameAt, hi]

/-- What is generated and told at one place. -/
theorem generateOne_ofText (threshold : Threshold) {i : Nat} (hi : i < texts.length) :
    (generateOne threshold (.ofText (nameAt i) .sole (texts.getD i ""))).1
        = (if (parsedAt? texts i).isSome then some (formulaAt texts i) else none) ∧
      (generateOne threshold (.ofText (nameAt i) .sole (texts.getD i ""))).2.filter Event.isTold
        = (complaintAt? texts i).toList := by
  have hlog : ∀ records, (if threshold.admits .debug then logged threshold records
      else []).filter Event.isTold = [] := by
    intro records
    split
    · exact filter_isTold_logged threshold records
    · rfl
  have hgenerate : (Formula.ofText (nameAt i) .sole (texts.getD i "")).generate
      = (formulaAt texts i, (parse .sole (texts.getD i "")).map fun _ => ()) := by
    rw [formulaAt, Formula.generate, Formula.ofText]
    cases parse .sole (texts.getD i "") <;> rfl
  rw [generateOne, hgenerate, parsedAt?_eq_toOption hi, complaintAt?]
  cases parse .sole (texts.getD i "") with
  | error e =>
    refine ⟨rfl, ?_⟩
    show (_ ++ [_]).filter Event.isTold = _
    rw [List.filter_append, hlog, title_formulaAt]
    rfl
  | ok p => exact ⟨rfl, hlog _⟩

/-- The formulas that are generated are those at the places of formulas. -/
theorem filterMap_generateOne (threshold : Threshold) (texts : List String) :
    ((formulasOf texts).map (generateOne threshold)).filterMap Prod.fst
      = (places texts).map (formulaAt texts) := by
  rw [formulasOf_eq, List.map_map, List.filterMap_map, ← List.filterMap_eq_map, places,
    List.filterMap_filter]
  refine List.filterMap_congr fun i hi => ?_
  exact (generateOne_ofText threshold (List.mem_range.mp hi)).1

/-- Generation tells of the texts that are no formulas. -/
theorem filter_isTold_generateOne (threshold : Threshold) (texts : List String) :
    (((formulasOf texts).map (generateOne threshold)).flatMap Prod.snd).filter Event.isTold
      = (List.range texts.length).filterMap (complaintAt? texts) := by
  rw [formulasOf_eq, List.map_map, List.flatMap_map, List.filter_flatMap,
    List.filterMap_eq_flatMap_toList]
  refine List.flatMap_congr fun i hi => ?_
  exact (generateOne_ofText threshold (List.mem_range.mp hi)).2

/-- All texts are generated if all of them are formulas. -/
theorem all_generateOne (threshold : Threshold) (texts : List String) :
    ((formulasOf texts).map (generateOne threshold)).all (fun p => p.1.isSome)
      = (List.range texts.length).all fun i => (parsedAt? texts i).isSome := by
  rw [formulasOf_eq, List.map_map, List.all_map, Bool.eq_iff_iff, List.all_eq_true,
    List.all_eq_true]
  refine forall₂_congr fun i hi => ?_
  rw [Function.comp_apply, Function.comp_apply,
    (generateOne_ofText threshold (List.mem_range.mp hi)).1]
  cases (parsedAt? texts i).isSome <;> simp

/-! ### The order of evaluation -/

/-- The place of the formula with a number. -/
def placeOf (texts : List String) (a : Nat) : Nat := (places texts).getD a 0

theorem placeOf_eq {a i : Nat} (h : (places texts)[a]? = some i) : placeOf texts a = i := by
  rw [placeOf, List.getD_eq_getElem?_getD, h, Option.getD_some]

theorem getElem?_places {a : Nat} (ha : a < (places texts).length) :
    (places texts)[a]? = some (placeOf texts a) := by
  rw [placeOf, List.getD_eq_getElem?_getD, List.getElem?_eq_getElem ha, Option.getD_some]

theorem map_placeOf_range (texts : List String) :
    (List.range (places texts).length).map (placeOf texts) = places texts := by
  refine List.ext_getElem? fun a => ?_
  by_cases ha : a < (places texts).length
  · rw [List.getElem?_map, List.getElem?_range ha, getElem?_places ha]
    rfl
  · simp [ha]

/-- The last formula with the name of a place is the one at that place, for names are different. -/
theorem lastBearer?_nameAt {b j : Nat} (hb : (places texts)[b]? = some j) (name : String) :
    lastBearer? name ((places texts).map nameAt) = some b ↔ name = nameAt j := by
  have hj : ((places texts).map nameAt)[b]? = some (nameAt j) := by
    rw [List.getElem?_map, hb]
    rfl
  have hnodup : ((places texts).map nameAt).Nodup := (nodup_places texts).map nameAt_injective
  rw [lastBearer?_eq_some_iff, hj, Option.some.injEq, eq_comm]
  refine and_iff_left_of_imp ?_
  rintro rfl k hk hname
  have hbk := (List.getElem?_inj (List.getElem?_eq_some_iff.mp hj).1 hnodup).mp
    (hj.trans hname.symm)
  omega

/-- One formula depends on another one by number exactly when it refers to it. -/
theorem needs_iff_refers {a b i j : Nat} (ha : (places texts)[a]? = some i)
    (hb : (places texts)[b]? = some j) :
    (dependencies ((places texts).map (formulaAt texts))).Needs a b ↔ Refers texts i j := by
  obtain ⟨p, hp⟩ := Option.isSome_iff_exists.mp (mem_places.mp (List.mem_of_getElem? ha))
  have hj := mem_places.mp (List.mem_of_getElem? hb)
  have hnames : ((places texts).map (formulaAt texts)).map Formula.name
      = (places texts).map nameAt := by
    rw [List.map_map]
    exact List.map_congr_left fun i _ => name_formulaAt texts i
  have hformula : ((places texts).map (formulaAt texts))[a]? = some (formulaAt texts i) := by
    rw [List.getElem?_map, ha]
    rfl
  have hreferences : (formulaAt texts i).references = references p.program := by
    rw [Formula.references, program_formulaAt hp]
  have hmentions : Mentions texts i j ↔ nameAt j ∈ references p.program := by
    obtain ⟨q, hq⟩ := Option.isSome_iff_exists.mp hj
    rw [Mentions, hp, and_iff_right (lt_length_of_parsedAt? hq)]
    simp
  rw [needs_dependencies_iff, hnames, hformula, Refers, and_iff_left hj, hmentions]
  simp [hreferences, lastBearer?_nameAt hb]

/-- Dependency by number does not leave the formulas. -/
theorem refers_of_needs {a b : Nat}
    (h : (dependencies ((places texts).map (formulaAt texts))).Needs a b) :
    Refers texts (placeOf texts a) (placeOf texts b) := by
  have hsize : (dependencies ((places texts).map (formulaAt texts))).size
      = (places texts).length := by rw [size_dependencies, List.length_map]
  have ha := Dependencies.lt_size_of_needs h
  have hb := (isProper_dependencies _).lt_size h
  rw [hsize] at ha hb
  exact (needs_iff_refers (getElem?_places ha) (getElem?_places hb)).mp h

/-- Numbers of all formulas, each after those it depends on, are an order of the formulas. -/
theorem ordered_map_placeOf {numbers : List Nat}
    (hperm : numbers.Perm (List.range (places texts).length))
    (hbefore : ∀ {before a after}, numbers = before ++ a :: after → ∀ b,
      (dependencies ((places texts).map (formulaAt texts))).Needs a b → b ∈ before) :
    Ordered texts (numbers.map (placeOf texts)) ∧
      ∀ i, i ∈ numbers.map (placeOf texts) ↔ (parsedAt? texts i).isSome := by
  have hplaces : (numbers.map (placeOf texts)).Perm (places texts) := by
    have := hperm.map (placeOf texts)
    rwa [map_placeOf_range] at this
  have hmem : ∀ i, i ∈ numbers.map (placeOf texts) ↔ (parsedAt? texts i).isSome :=
    fun i => hplaces.mem_iff.trans mem_places
  refine ⟨⟨hplaces.nodup_iff.mpr (nodup_places texts), fun i hi => (hmem i).mp hi, ?_⟩, hmem⟩
  intro before i after heq j hrefers
  obtain ⟨numbers₁, numbers₂, rfl, rfl, hafter⟩ := List.map_eq_append_iff.mp heq
  obtain ⟨a, numbers₃, rfl, rfl, -⟩ := List.map_eq_cons_iff.mp hafter
  obtain ⟨b, hb⟩ := List.mem_iff_getElem?.mp (mem_places.mpr hrefers.2)
  have ha : (places texts)[a]? = some (placeOf texts a) :=
    getElem?_places (List.mem_range.mp (hperm.mem_iff.mp (by simp)))
  rw [← placeOf_eq hb]
  exact List.mem_map_of_mem (hbefore rfl b ((needs_iff_refers ha hb).mpr hrefers))

/-- The formulas with some numbers are those at the places of the numbers. -/
theorem filterMap_getElem?_places {numbers : List Nat}
    (h : ∀ a ∈ numbers, a < (places texts).length) :
    (numbers.filterMap fun a => ((places texts).map (formulaAt texts))[a]?)
      = (numbers.map (placeOf texts)).map (formulaAt texts) := by
  rw [List.map_map]
  refine (List.filterMap_congr fun a ha => ?_).trans (congrFun List.filterMap_eq_map _)
  rw [List.getElem?_map, getElem?_places (h a ha)]
  rfl

theorem exists_isComparison_of_mem_places {f : Formula}
    (hf : f ∈ (places texts).map (formulaAt texts)) :
    ∃ comparison, f.isComparison = .ok comparison := by
  obtain ⟨i, hi, rfl⟩ := List.mem_map.mp hf
  obtain ⟨p, hp⟩ := Option.isSome_iff_exists.mp (mem_places.mp hi)
  exact Formula.exists_isComparison_of_checkShape (checkShape_formulaAt hp)

/-- **There is an order of evaluation** where no formula refers to itself, and it has every formula
after those that it refers to. -/
theorem ordered_places (hacyclic : ∀ i, ¬ TransGen (Refers texts) i i) :
    ∃ numbers, evaluationOrder ((places texts).map (formulaAt texts)) = .ok numbers ∧
      (∀ a ∈ numbers, a < (places texts).length) ∧ Ordered texts (numbers.map (placeOf texts)) ∧
      ∀ i, i ∈ numbers.map (placeOf texts) ↔ (parsedAt? texts i).isSome := by
  have hproper := isProper_dependencies ((places texts).map (formulaAt texts))
  have hneeds : ∀ a, ¬ TransGen (dependencies ((places texts).map (formulaAt texts))).Needs a a :=
    fun a ha => hacyclic _ (ha.lift (placeOf texts) fun _ _ => refers_of_needs)
  obtain ⟨prefers, hnumbers⟩ :=
    evaluationOrder_eq_order (fun _ => exists_isComparison_of_mem_places) hneeds
  have hperm := Dependencies.order_perm hproper hneeds prefers
  rw [size_dependencies, List.length_map] at hperm
  exact ⟨_, hnumbers, fun a ha => List.mem_range.mp (hperm.mem_iff.mp ha),
    ordered_map_placeOf hperm fun heq _ => Dependencies.mem_before_of_order_eq hproper heq⟩

/-! ### What becomes of the formulas -/

/-- What becomes of the formula at a place when formulas are evaluated in an order. -/
def outcomeIn (lib : MathLibrary) (defines : List (String × Float)) (texts : List String)
    (order : List Nat) (i : Nat) : Outcome :=
  let before := order.takeWhile (· != i)
  outcomeOf lib (tableAfter lib (.ofBindings defines) (before.map (formulaAt texts)))
    (formulaAt texts i)

theorem outcomeIn_eq {defines : List (String × Float)} {before after : List Nat} {i : Nat}
    (h : (before ++ i :: after).Nodup) :
    outcomeIn lib defines texts (before ++ i :: after) i
      = outcomeOf lib (tableAfter lib (.ofBindings defines) (before.map (formulaAt texts)))
          (formulaAt texts i) := by
  have hi : ∀ j ∈ before, (j != i) = true := by
    intro j hj
    have := (List.nodup_append.mp h).2.2 j hj i List.mem_cons_self
    simpa using this
  rw [outcomeIn, List.takeWhile_append_of_pos hi, List.takeWhile_cons_of_neg (by simp),
    List.append_nil]

/-- What becomes of a formula in an order of evaluation is told by its result. -/
theorem tells_outcomeIn {defines : List (String × Float)} {results : Results}
    (hmeaning : IsMeaning lib defines texts results) {order : List Nat}
    (horder : Ordered texts order) {i : Nat} (hi : i ∈ order) {p : Parsed}
    (hp : parsedAt? texts i = some p) :
    ∃ result, results i = some result ∧ Tells (environmentOf defines texts.length results) p.program
      result (outcomeIn lib defines texts order i) := by
  obtain ⟨before, after, rfl⟩ := List.append_of_mem hi
  rw [outcomeIn_eq horder.nodup]
  exact tells_step hmeaning horder (environment_tableAfter hmeaning horder.of_append) hp

/-- What becomes of the formulas, one after another. -/
theorem evaluateAll_map {defines : List (String × Float)} {order : List Nat}
    (horder : order.Nodup) :
    evaluateAll lib (.ofBindings defines) (order.map (formulaAt texts))
      = order.map fun i => (formulaAt texts i, outcomeIn lib defines texts order i) := by
  have key : ∀ rest before, order = before ++ rest →
      evaluateAll lib (tableAfter lib (.ofBindings defines) (before.map (formulaAt texts)))
          (rest.map (formulaAt texts))
        = rest.map fun i => (formulaAt texts i, outcomeIn lib defines texts order i) := by
    intro rest
    induction rest with
    | nil => exact fun _ _ => rfl
    | cons i rest ih =>
      intro before heq
      have hnext := ih (before ++ [i]) (by simp [heq])
      rw [List.map_append, tableAfter_append] at hnext
      subst heq
      rw [List.map_cons, List.map_cons, evaluateAll, ← hnext, outcomeIn_eq horder]
      rfl
  exact key order [] rfl

/-! ### Runs -/

/-- What becomes of the formulas of a run, in the order of evaluation if there is one. -/
def answersTo (lib : MathLibrary) (defines : List (String × Float)) (texts : List String) :
    Except EvalError (List (Formula × Outcome)) :=
  let formulas := (places texts).map (formulaAt texts)
  (evaluationOrder formulas).map fun numbers =>
    evaluateAll lib (.ofBindings defines) (numbers.filterMap fun a => formulas[a]?)

/-- What is told of the formulas of a run: what becomes of each of them, or why there is no
order. -/
def eventsOf : Except EvalError (List (Formula × Outcome)) → List Event
  | .error e => [.err e.message]
  | .ok answers => answers.map fun p => p.2.event p.1

/-- Whether there is an order, and every formula in it has a value. -/
def allValues : Except EvalError (List (Formula × Outcome)) → Bool
  | .error _ => false
  | .ok answers => answers.all fun p => p.2.isValue

/-- **Runs tell nothing of their log.** What a run tells, and how it exits, is told by its texts and
what names are defined as. -/
theorem told_and_exit_runTexts (lib : MathLibrary) (o : Options) (threshold : Threshold)
    (texts : List String) :
    (runTexts lib o threshold texts).told
        = (List.range texts.length).filterMap (complaintAt? texts)
          ++ eventsOf (answersTo lib o.defines texts) ∧
      (runTexts lib o threshold texts).exit
        = if (List.range texts.length).all (fun i => (parsedAt? texts i).isSome)
            && allValues (answersTo lib o.defines texts) then 0 else 1 := by
  rw [runTexts, filterMap_generateOne, all_generateOne, Report.told, evaluateGenerated, answersTo]
  cases evaluationOrder ((places texts).map (formulaAt texts)) with
  | error e =>
    refine ⟨?_, by simp [Except.map, allValues]⟩
    rw [List.filter_append, filter_isTold_generateOne]
    rfl
  | ok numbers =>
    refine ⟨?_, rfl⟩
    rw [List.filter_append, filter_isTold_generateOne]
    refine congrArg _ ?_
    rw [List.filter_append, filter_isTold_logged, List.nil_append, List.filter_flatMap]
    refine (List.flatMap_congr fun p _ => ?_).trans List.map_eq_flatMap.symm
    rw [List.filter_append, filter_isTold_logged, List.nil_append,
      List.filter_cons_of_pos (isTold_event _ _), List.filter_nil]

/-- In an order of evaluation, what becomes of the formulas becomes of those at its places. -/
theorem answersTo_eq (lib : MathLibrary) (defines : List (String × Float)) {numbers : List Nat}
    (hnumbers : evaluationOrder ((places texts).map (formulaAt texts)) = .ok numbers)
    (hlt : ∀ a ∈ numbers, a < (places texts).length)
    (hnodup : (numbers.map (placeOf texts)).Nodup) :
    answersTo lib defines texts = .ok ((numbers.map (placeOf texts)).map fun i =>
      (formulaAt texts i, outcomeIn lib defines texts (numbers.map (placeOf texts)) i)) := by
  rw [answersTo, hnumbers, Except.map, filterMap_getElem?_places hlt, evaluateAll_map hnodup]

/-- What a run tells, explained by the results of its formulas. -/
structure Explains (lib : MathLibrary) (defines : List (String × Float)) (texts : List String)
    (results : Results) (order : List Nat) (lines : Nat → Event) (told : List Event) : Prop where
  nodup : order.Nodup
  /-- There is a line about every formula. -/
  mem_iff : ∀ i, i ∈ order ↔ (parsedAt? texts i).isSome
  /-- First come the complaints about texts that are no formulas, then the lines about formulas. -/
  told_eq : told = (List.range texts.length).filterMap (complaintAt? texts) ++ order.map lines
  /-- The line about a formula gives its result. -/
  lineOf : ∀ i p, parsedAt? texts i = some p → ∃ result, results i = some result ∧
    LineOf (environmentOf defines texts.length results) (titleAt texts i) p.program result (lines i)
  /-- The line tells what becomes of the formula in the table of its time, in which its names stand
  for the same. -/
  sees : ∀ before i after p, order = before ++ i :: after → parsedAt? texts i = some p →
    let table := tableAfter lib (.ofBindings defines) (before.map (formulaAt texts))
    lines i = (outcomeOf lib table (formulaAt texts i)).event (formulaAt texts i) ∧
      ∀ name ∈ references p.program,
        table.environment name = environmentOf defines texts.length results name
  /-- In this table the name of a formula with a value is bound to this value. -/
  fresh : ∀ before i after p j v, order = before ++ i :: after → parsedAt? texts i = some p →
    nameAt j ∈ references p.program → results j = some (.ok v) →
      (tableAfter lib (.ofBindings defines) (before.map (formulaAt texts))).environment (nameAt j)
        = some v

/-- The results that there are explain what a run on texts tells, in any order of evaluation. -/
theorem explains_runTexts (o : Options) (threshold : Threshold) {results : Results}
    (hmeaning : IsMeaning lib o.defines texts results) {numbers : List Nat}
    (hnumbers : evaluationOrder ((places texts).map (formulaAt texts)) = .ok numbers)
    (hlt : ∀ a ∈ numbers, a < (places texts).length)
    (horder : Ordered texts (numbers.map (placeOf texts)))
    (hmem : ∀ i, i ∈ numbers.map (placeOf texts) ↔ (parsedAt? texts i).isSome) :
    Explains lib o.defines texts results (numbers.map (placeOf texts))
      (fun i => (outcomeIn lib o.defines texts (numbers.map (placeOf texts)) i).event
        (formulaAt texts i))
      (runTexts lib o threshold texts).told := by
  have hanswers := answersTo_eq lib o.defines hnumbers hlt horder.nodup
  generalize numbers.map (placeOf texts) = order at horder hmem hanswers ⊢
  have hsees : ∀ before i after p, order = before ++ i :: after → parsedAt? texts i = some p →
      ∀ name ∈ references p.program,
        (tableAfter lib (.ofBindings o.defines) (before.map (formulaAt texts))).environment name
          = environmentOf o.defines texts.length results name := by
    rintro before i after p rfl hp name hname
    rw [environment_tableAfter hmeaning horder.of_append,
      environmentOf_upTo hmeaning horder hp hname]
  refine ⟨horder.nodup, hmem, ?_, ?_, ?_, ?_⟩
  · rw [(told_and_exit_runTexts lib o threshold texts).1, hanswers, eventsOf, List.map_map]
    rfl
  · intro i p hp
    obtain ⟨result, hresult, htells⟩ :=
      tells_outcomeIn hmeaning horder ((hmem i).mpr (by rw [hp]; rfl)) hp
    rw [← program_formulaAt hp] at htells
    have hline := htells.lineOf_event
    rw [title_formulaAt, program_formulaAt hp] at hline
    exact ⟨result, hresult, hline⟩
  · rintro before i after p rfl hp
    exact ⟨congrArg _ (outcomeIn_eq horder.nodup), hsees before i after p rfl hp⟩
  · intro before i after p j v heq hp hname hj
    rw [hsees before i after p heq hp _ hname, environmentOf_nameAt (hmeaning.lt_length hj),
      Results.value?, hj]
    rfl

namespace Explains

variable {defines : List (String × Float)} {results : Results} {order : List Nat}
  {lines : Nat → Event} {told : List Event}
  (h : Explains lib defines texts results order lines told) {i : Nat}

include h

/-- The lines about formulas begin with their titles. -/
theorem exists_text {j : Nat} (hj : j ∈ order) :
    ∃ rest, (lines j).text = titleAt texts j ++ rest := by
  obtain ⟨p, hp⟩ := Option.isSome_iff_exists.mp ((h.mem_iff j).mp hj)
  obtain ⟨result, -, hline⟩ := h.lineOf j p hp
  exact hline.exists_text

/-- Results are told of formulas only. -/
theorem exists_parsedAt? {rest : String} (hmem : .out (titleAt texts i ++ rest) ∈ told) :
    ∃ p, parsedAt? texts i = some p := by
  rw [h.told_eq, List.mem_append, List.mem_filterMap, List.mem_map] at hmem
  rcases hmem with ⟨j, -, hj⟩ | ⟨j, hj, hline⟩
  · rw [complaintAt?] at hj
    split at hj <;> cases hj
  · obtain ⟨rest', htext⟩ := h.exists_text hj
    rw [hline] at htext
    rw [eq_of_titleAt_append htext]
    exact Option.isSome_iff_exists.mp ((h.mem_iff j).mp hj)

section Lines

variable {p : Parsed} (hp : parsedAt? texts i = some p)

include hp

/-- Of all that is told, the line about a formula is what begins with its title. -/
theorem mem_told_iff {event : Event} {rest : String}
    (hevent : event.text = titleAt texts i ++ rest) : event ∈ told ↔ event = lines i := by
  rw [h.told_eq, List.mem_append, List.mem_filterMap, List.mem_map]
  constructor
  · rintro (⟨j, -, hj⟩ | ⟨j, hj, rfl⟩)
    · rw [complaintAt?] at hj
      split at hj
      · rename_i e hparse
        cases hj
        have hij : j = i := eq_of_titleAt_append (by
          rw [← hevent, Event.text, String.append_assoc])
        subst hij
        rw [parse_getD_of_parsedAt? hp] at hparse
        cases hparse
      · cases hj
    · obtain ⟨rest', htext⟩ := h.exists_text hj
      rw [eq_of_titleAt_append (htext.symm.trans hevent)]
  · rintro rfl
    exact .inr ⟨i, (h.mem_iff i).mpr (by rw [hp]; rfl), rfl⟩

/-- The value of a formula is told exactly if it has one. -/
theorem value_iff :
    (∃ shown, .out (titleAt texts i ++ " = " ++ shown) ∈ told) ↔ ∃ v, results i = some (.ok v) := by
  obtain ⟨result, hresult, hline⟩ := h.lineOf i p hp
  have hmem : ∀ shown, .out (titleAt texts i ++ " = " ++ shown) ∈ told ↔
      lines i = .out (titleAt texts i ++ " = " ++ shown) := fun shown =>
    (h.mem_told_iff hp (String.append_assoc ..)).trans eq_comm
  simp only [hmem, hline.value_iff, hresult, Option.some.injEq]

/-- Names are told exactly if some are not bound. -/
theorem unresolved_iff :
    (∃ shown, .out (titleAt texts i ++ " -> unresolved: " ++ shown) ∈ told) ↔
      unresolved (environmentOf defines texts.length results) p.program ≠ [] := by
  obtain ⟨result, -, hline⟩ := h.lineOf i p hp
  have hmem : ∀ shown, .out (titleAt texts i ++ " -> unresolved: " ++ shown) ∈ told ↔
      lines i = .out (titleAt texts i ++ " -> unresolved: " ++ shown) := fun shown =>
    (h.mem_told_iff hp (String.append_assoc ..)).trans eq_comm
  simp only [hmem, hline.unresolved_iff]

/-- An error is told exactly of a formula that fails although all names are bound. -/
theorem failed_iff :
    (∃ shown, .err (titleAt texts i ++ ": " ++ shown) ∈ told) ↔
      unresolved (environmentOf defines texts.length results) p.program = [] ∧
        ∃ e, results i = some (.error e) := by
  obtain ⟨result, hresult, hline⟩ := h.lineOf i p hp
  have hmem : ∀ shown, .err (titleAt texts i ++ ": " ++ shown) ∈ told ↔
      lines i = .err (titleAt texts i ++ ": " ++ shown) := fun shown =>
    (h.mem_told_iff hp (String.append_assoc ..)).trans eq_comm
  simp only [hmem, hline.failed_iff, hresult, Option.some.injEq]

end Lines

end Explains

/-- **Runs tell what formulas mean.** Where the formulas of a run do not refer to each other in a
circle they have one meaning, and the run tells what becomes of them by it: the value of a formula
exactly if it has one, the names exactly if some are not bound, and the error otherwise. -/
theorem run_explains (lib : MathLibrary) {readFile : String → Except ReadError String}
    {filter : Option String} {arguments : List String} {o : Options} {texts : List String}
    (ho : parseArguments arguments = .ok o) (htexts : textsOf readFile o = .ok texts)
    (hacyclic : ∀ i, ¬ TransGen (Refers texts) i i) :
    (∃! results, IsMeaning lib o.defines texts results) ∧
      ∀ results, IsMeaning lib o.defines texts results →
        let told := (run lib readFile filter arguments).told
        (∃ order lines, Explains lib o.defines texts results order lines told) ∧
          ∀ i p, parsedAt? texts i = some p →
            let missing := unresolved (environmentOf o.defines texts.length results) p.program
            ((∃ shown, .out (titleAt texts i ++ " = " ++ shown) ∈ told) ↔
              ∃ v, results i = some (.ok v)) ∧
            ((∃ shown, .out (titleAt texts i ++ " -> unresolved: " ++ shown) ∈ told) ↔
              missing ≠ []) ∧
            ((∃ shown, .err (titleAt texts i ++ ": " ++ shown) ∈ told) ↔
              missing = [] ∧ ∃ e, results i = some (.error e)) := by
  refine ⟨existsUnique_isMeaning lib o.defines hacyclic, fun results hmeaning => ?_⟩
  obtain ⟨numbers, hnumbers, hlt, horder, hmem⟩ := ordered_places hacyclic
  have hrun : run lib readFile filter arguments = runTexts lib o (threshold o filter) texts := by
    simp only [run, ho, htexts]
  rw [hrun]
  have hexplains :=
    explains_runTexts o (threshold o filter) hmeaning hnumbers hlt horder hmem
  exact ⟨⟨_, _, hexplains⟩, fun i p hp =>
    ⟨hexplains.value_iff hp, hexplains.unresolved_iff hp, hexplains.failed_iff hp⟩⟩

/-- A name is defined, but belongs to a formula with a value: `expr1` sees this value. -/
theorem run_explains_shadowed : ∃ o,
    parseArguments ["-D", "a=1", "-D", "expr2=7", "expr2", "a"] = .ok o ∧
      textsOf (fun _ => .ok "") o = .ok ["expr2", "a"] ∧
      (∀ i, ¬ TransGen (Refers ["expr2", "a"]) i i) ∧
      (run .system (fun _ => .ok "") none ["-D", "a=1", "-D", "expr2=7", "expr2", "a"]).told
        = [.out "expr2: a = 1", .out "expr1: expr2 = 1"] ∧
      ∃ results order lines, IsMeaning .system o.defines ["expr2", "a"] results ∧
        Explains .system o.defines ["expr2", "a"] results order lines
          [.out "expr2: a = 1", .out "expr1: expr2 = 1"] ∧
        ∃ v, results 0 = some (.ok v) := by
  have hfirst : parse .sole "expr2" = .ok ⟨[.reference "expr2"], [.reference "expr2"]⟩ :=
    parse_name (show Text.visible "expr2" = ['e', 'x', 'p', 'r', '2'] by decide) rfl
      (List.all_eq_true.mp rfl) (by decide)
  have hsecond : parse .sole "a" = .ok ⟨[.reference "a"], [.reference "a"]⟩ :=
    parse_name (show Text.visible "a" = ['a'] by decide) rfl (by simp) (by decide)
  have hlt : ∀ {i j}, Refers ["expr2", "a"] i j → i < j := by
    rintro i j ⟨⟨-, p, hp, hname⟩, -⟩
    obtain ⟨text, htext, hparse⟩ := parsedAt?_eq_some_iff.mp hp
    match i with
    | 0 =>
      cases htext
      rw [hfirst] at hparse
      cases hparse
      have hj : nameAt j = "expr2" := by simpa [Token.references] using hname
      have hone : nameAt 1 = "expr2" := by decide
      rw [nameAt_injective (hj.trans hone.symm)]
      exact Nat.one_pos
    | 1 =>
      cases htext
      rw [hsecond] at hparse
      cases hparse
      have hj : nameAt j = "a" := by simpa [Token.references] using hname
      have hhead : (nameAt j).toList.head? = some 'e' := by simp [nameAt]
      rw [hj] at hhead
      exact absurd hhead (by decide)
    | i + 2 => cases htext
  have hacyclic : ∀ i, ¬ TransGen (Refers ["expr2", "a"]) i i := by
    have key : ∀ {i j}, TransGen (Refers ["expr2", "a"]) i j → i < j := by
      intro i j h
      induction h with
      | single h => exact hlt h
      | tail _ h ih => exact ih.trans (hlt h)
    exact fun i h => absurd (key h) (Nat.lt_irrefl i)
  let o : Options :=
    { Options.none with defines := [("a", 1.0), ("expr2", 7.0)], formulas := ["expr2", "a"] }
  have hoptions : parseArguments ["-D", "a=1", "-D", "expr2=7", "expr2", "a"] = .ok o := rfl
  have htexts : textsOf (fun _ => .ok "") o = .ok ["expr2", "a"] := rfl
  have htold : (run .system (fun _ => .ok "") none
      ["-D", "a=1", "-D", "expr2=7", "expr2", "a"]).told
        = [.out "expr2: a = 1", .out "expr1: expr2 = 1"] := by
    have hformulas : formulasOf ["expr2", "a"]
        = [.ofText "expr1" .sole "expr2", .ofText "expr2" .sole "a"] := rfl
    have hgenerateFirst := Formula.generate_of_parse (f := .ofText "expr1" .sole "expr2") hfirst
    have hgenerateSecond := Formula.generate_of_parse (f := .ofText "expr2" .sole "a") hsecond
    simp only [run, hoptions, htexts, runTexts, hformulas, List.map_cons, List.map_nil, generateOne,
      hgenerateFirst, hgenerateSecond]
    rfl
  obtain ⟨⟨results, hmeaning, -⟩, hexplains⟩ :=
    @run_explains .system (fun _ => .ok "") none _ o _ hoptions htexts hacyclic
  obtain ⟨⟨order, lines, h⟩, hlines⟩ := hexplains results hmeaning
  rw [htold] at h hlines
  have hparsed : parsedAt? ["expr2", "a"] 0 = some _ := parsedAt?_eq_some_iff.mpr ⟨_, rfl, hfirst⟩
  obtain ⟨hvalue, -, -⟩ := hlines 0 _ hparsed
  have hshown : titleAt ["expr2", "a"] 0 ++ " = " ++ "1" = "expr1: expr2 = 1" := by decide
  refine ⟨o, hoptions, htexts, hacyclic, htold, results, order, lines, hmeaning, h,
    hvalue.mp ⟨"1", ?_⟩⟩
  rw [hshown]
  simp

end CommandLine

end Formulary
