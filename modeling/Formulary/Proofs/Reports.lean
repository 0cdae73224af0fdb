import Formulary.Proofs.Publishing

/-!
# What a run tells

A run writes lines of results, lines of complaints, and records of a log. The log may be kept or
not, and what a run tells is the rest. There is one line about each text. That of a text that is no
formula is a complaint which gives the cause. That of a formula gives its value, as a number or as a
truth value and its number; or, as a result too, the names that are not bound; or else, as a
complaint, why there is no value.

The lines are written out here, with the name of the formula and its text in front. They are told
apart by what follows these: no value is shown after an arrow, and no names are shown after an
equals sign.

## Main definitions

* `Report.told` — what a run writes apart from its log
* `complaintAt?` — the complaint about a text that is no formula
* `titleAt` — what stands in front of a line
* `LineOf` — the lines about a formula that has a given result in a given environment

## Main results

* `Tells.lineOf_event` — what becomes of a formula is told in such a line
* `LineOf.value_iff`, `LineOf.unresolved_iff`, `LineOf.failed_iff` — what can be told from a line
-/

namespace Formulary

namespace CommandLine

variable {texts : List String}

/-! ### Results and complaints -/

/-- Whether an event is told to the user, and not to the log. -/
def Event.isTold : Event → Bool
  | .log _ => false
  | _ => true

/-- What is written for an event. -/
def Event.text : Event → String
  | .out line | .err line => line
  | .log record => record.text

namespace Report

/-- What a run writes apart from its log. -/
def told (r : Report) : List Event := r.events.filter Event.isTold

/-- What is picked among the events of a run is among what it tells, if no record is picked. -/
theorem filterMap_events {pick : Event → Option String} (h : ∀ record, pick (.log record) = none)
    (r : Report) : r.events.filterMap pick = r.told.filterMap pick := by
  rw [told, List.filterMap_filter]
  refine List.filterMap_congr fun event _ => ?_
  cases event with
  | out line => rfl
  | err line => rfl
  | log record => exact h record

theorem results_eq (r : Report) : r.results = r.told.filterMap fun
    | .out line => some line
    | _ => none := filterMap_events (fun _ => rfl) r

theorem complaints_eq (r : Report) : r.complaints = r.told.filterMap fun
    | .err line => some line
    | _ => none := filterMap_events (fun _ => rfl) r

theorem mem_told_of_mem_results {r : Report} {line : String} (h : line ∈ r.results) :
    .out line ∈ r.told := by
  rw [results_eq, List.mem_filterMap] at h
  obtain ⟨event, hmem, hline⟩ := h
  cases event with
  | out line' =>
    cases hline
    exact hmem
  | err line' => cases hline
  | log record => cases hline

theorem mem_told_of_mem_complaints {r : Report} {line : String} (h : line ∈ r.complaints) :
    .err line ∈ r.told := by
  rw [complaints_eq, List.mem_filterMap] at h
  obtain ⟨event, hmem, hline⟩ := h
  cases event with
  | err line' =>
    cases hline
    exact hmem
  | out line' => cases hline
  | log record => cases hline

end Report

@[simp] theorem filter_isTold_logged (threshold : Threshold) (records : List Record) :
    (logged threshold records).filter Event.isTold = [] := by
  rw [logged, List.filter_map]
  exact List.map_eq_nil_iff.mpr (List.filter_eq_nil_iff.mpr fun r _ h => by cases h)

theorem isTold_event (f : Formula) (outcome : Outcome) : (outcome.event f).isTold = true := by
  cases outcome <;> rfl

/-! ### Lines -/

/-- What stands in front of every line about the text at a place: the name that belongs to the
place, and the text. -/
def titleAt (texts : List String) (i : Nat) : String := nameAt i ++ ": " ++ texts.getD i ""

/-- Lines with different titles are different, for no name of a formula has a colon in it. -/
theorem eq_of_titleAt_append {i j : Nat} {rest rest' : String}
    (h : titleAt texts i ++ rest = titleAt texts j ++ rest') : i = j := by
  have hname : ∀ k, ∀ c ∈ (nameAt k).toList, (c != ':') = true := by
    intro k c hc
    have hdigit : c ∈ "expr".toList ∨ c.isDigit = true := by
      rw [nameAt, String.toList_append, List.mem_append] at hc
      refine hc.imp_right fun hc => ?_
      rw [Nat.toString_eq_repr, Nat.toList_repr] at hc
      exact Nat.isDigit_of_mem_toDigits (by decide) (by decide) hc
    rw [bne_iff_ne]
    rintro rfl
    exact absurd hdigit (by decide)
  have key : ∀ k rest,
      (titleAt texts k ++ rest).toList.takeWhile (· != ':') = (nameAt k).toList := by
    intro k rest
    have hlist : (titleAt texts k ++ rest).toList
        = (nameAt k).toList ++ ':' :: ' ' :: ((texts.getD k "").toList ++ rest.toList) := by
      simp [titleAt]
    rw [hlist, List.takeWhile_append_of_pos (hname k), List.takeWhile_cons_of_neg (by decide),
      List.append_nil]
  refine nameAt_injective (String.toList_injective ?_)
  rw [← key i rest, h, key]

/-- The complaint about the text at a place, if it is no formula. -/
def complaintAt? (texts : List String) (i : Nat) : Option Event :=
  match parse .sole (texts.getD i "") with
  | .error e => some (.err (titleAt texts i ++ ": " ++ e.message))
  | .ok _ => none

/-- The lines about a formula, given its result in an environment. -/
inductive LineOf (env : Environment) (title : String) (program : List Token) :
    Except EvalError Float → Event → Prop where
  /-- A number, of a formula that does not compare. -/
  | number (v : Float) (hresolved : unresolved env program = [])
      (hcomparison : isComparison program = .ok false) :
      LineOf env title program (.ok v) (.out (title ++ " = " ++ Decimal.text v))
  /-- Any number but zero, of a formula that compares. -/
  | true (v : Float) (hresolved : unresolved env program = [])
      (hcomparison : isComparison program = .ok true) (hv : (v != 0.0) = true) :
      LineOf env title program (.ok v)
        (.out (title ++ " = " ++ ("true (" ++ Decimal.text v ++ ")")))
  /-- Zero, of a formula that compares. -/
  | false (v : Float) (hresolved : unresolved env program = [])
      (hcomparison : isComparison program = .ok true) (hv : (v != 0.0) = false) :
      LineOf env title program (.ok v)
        (.out (title ++ " = " ++ ("false (" ++ Decimal.text v ++ ")")))
  /-- The names that are not bound, in order and with repetitions. -/
  | unresolved (e : EvalError) (hmissing : unresolved env program ≠ []) :
      LineOf env title program (.error e)
        (.out (title ++ " -> unresolved: " ++ String.intercalate ", " (unresolved env program)))
  /-- The cause, where all names are bound. -/
  | failed (e : EvalError) (hresolved : unresolved env program = []) :
      LineOf env title program (.error e) (.err (title ++ ": " ++ e.message))

theorem LineOf.exists_text {env : Environment} {title : String} {program : List Token}
    {result : Except EvalError Float} {event : Event} (h : LineOf env title program result event) :
    ∃ rest, event.text = title ++ rest := by
  cases h
  all_goals
    simp only [Event.text, String.append_assoc]
    exact ⟨_, rfl⟩

/-- What becomes of a formula is told in a line about it. -/
theorem Tells.lineOf_event {env : Environment} {f : Formula} {result : Except EvalError Float}
    {outcome : Outcome} (h : Tells env f.program result outcome) :
    LineOf env f.title f.program result (outcome.event f) := by
  obtain ⟨comparison, hcomparison⟩ := h.classified
  by_cases hmissing : Formulary.unresolved env f.program = []
  · cases result with
    | error e =>
      rw [(h.failed e).mpr ⟨rfl, hmissing⟩]
      exact .failed e hmissing
    | ok v =>
      rw [(h.value comparison v).mpr ⟨rfl, hcomparison⟩]
      cases comparison with
      | false => exact .number v hmissing hcomparison
      | true =>
        rw [Outcome.event, if_pos rfl, Outcome.truthText]
        cases hv : v != 0.0 with
        | true => exact .true v hmissing hcomparison hv
        | false => exact .false v hmissing hcomparison hv
  · have houtcome := (h.unresolved _).mpr ⟨rfl, hmissing⟩
    rw [houtcome]
    cases result with
    | error e => exact .unresolved e hmissing
    | ok v =>
      rw [(h.value comparison v).mpr ⟨rfl, hcomparison⟩] at houtcome
      cases houtcome

/-! ### Lines told apart -/

/-- What follows the title tells a value from names. -/
theorem value_ne_unresolved (title shown shown' : String) :
    title ++ " = " ++ shown ≠ title ++ " -> unresolved: " ++ shown' := by
  intro h
  have hlist := congrArg String.toList h
  simp only [String.toList_append, List.append_assoc, List.append_cancel_left_eq] at hlist
  exact absurd (List.cons.inj (List.cons.inj hlist).2).1 (by decide)

namespace LineOf

variable {env : Environment} {title : String} {program : List Token}
  {result : Except EvalError Float} {event : Event} (h : LineOf env title program result event)

include h

/-- A value is shown exactly if there is one. -/
theorem value_iff : (∃ shown, event = .out (title ++ " = " ++ shown)) ↔ ∃ v, result = .ok v := by
  cases h with
  | number v _ _ | true v _ _ _ | false v _ _ _ =>
    exact iff_of_true ⟨_, rfl⟩ ⟨v, rfl⟩
  | unresolved e _ =>
    refine iff_of_false ?_ (by simp)
    rintro ⟨shown, hline⟩
    exact value_ne_unresolved title shown _ (Event.out.inj hline).symm
  | failed e _ => exact iff_of_false (by simp) (by simp)

/-- Names are shown exactly if some are not bound. -/
theorem unresolved_iff :
    (∃ shown, event = .out (title ++ " -> unresolved: " ++ shown))
      ↔ Formulary.unresolved env program ≠ [] := by
  cases h with
  | unresolved e hmissing => exact iff_of_true ⟨_, rfl⟩ hmissing
  | failed e hresolved => exact iff_of_false (by simp) (not_not.mpr hresolved)
  | number v hresolved _ | true v hresolved _ _ | false v hresolved _ _ =>
    refine iff_of_false ?_ (not_not.mpr hresolved)
    rintro ⟨shown, hline⟩
    exact value_ne_unresolved title _ shown (Event.out.inj hline)

/-- A complaint is made exactly of a formula that fails although all names are bound. -/
theorem failed_iff :
    (∃ shown, event = .err (title ++ ": " ++ shown)) ↔
      Formulary.unresolved env program = [] ∧ ∃ e, result = .error e := by
  cases h with
  | number v _ _ | true v _ _ _ | false v _ _ _ => exact iff_of_false (by simp) (by simp)
  | unresolved e hmissing => exact iff_of_false (by simp) fun hresolved => hmissing hresolved.1
  | failed e hresolved => exact iff_of_true ⟨_, rfl⟩ ⟨hresolved, e, rfl⟩

end LineOf

end CommandLine

end Formulary
