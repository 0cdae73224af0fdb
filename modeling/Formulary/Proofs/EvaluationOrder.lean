import Formulary.Proofs.Failures
import Formulary.Proofs.Scheduling

/-!
# What the order of evaluation is

A formula depends on the last formula that bears a name it refers to. The search for an order keeps
numbers and lists of what is ready, and it is preceded by a search for circles that knows nothing of
these. The two agree: where there is no circle the search for an order leaves nothing out, and a
formula that is counted down when another one gets its place has been waiting for it.

## Main definitions

* `DependsOn` — whether a formula refers to another one
* `IsOrder` — orders of all formulas in which each comes after those it depends on
* `Dependencies.Reached` — the states of the search for an order

## Main results

* `Reached.pos_waiting` — no number is lowered below zero
* `isOrder_of_evaluationOrder` — what is found is such an order
* `evaluationOrder_of_made` — when an order is found, and what is reported otherwise
-/

namespace Formulary

open Relation

/-! ### The states of the search -/

namespace Dependencies

variable {g : Dependencies} {prefers : Nat → Nat → Bool} {s : Progress}

/-- The states that the search for an order passes through. -/
inductive Reached (g : Dependencies) (prefers : Nat → Nat → Bool) : Progress → Prop where
  | start : Reached g prefers g.start
  | place {s : Progress} {i : Nat} (h : Reached g prefers s)
      (hnext : first? prefers s.ready = some i) : Reached g prefers (g.place s i)

namespace Reached

theorem sound (hg : g.IsProper) (h : g.Reached prefers s) : s.Sound g := by
  induction h with
  | start => exact sound_start g
  | place _ hnext ih => exact sound_place hg ih (mem_of_first? hnext)

/-- **No number falls below zero.** What needs the thing that gets the next place has been waiting
for it. -/
theorem pos_waiting (hg : g.IsProper) (h : g.Reached prefers s) {i d : Nat}
    (hnext : first? prefers s.ready = some i) (hneeds : g.Needs d i) :
    0 < s.waiting.getD d 0 := by
  have hs := h.sound hg
  obtain ⟨-, hplaced, -⟩ := (hs.mem_ready i).mp (mem_of_first? hnext)
  rw [hs.waiting d (lt_size_of_needs hneeds), List.countP_pos_iff]
  exact ⟨i, hneeds, by simpa using hplaced⟩

theorem advance (h : g.Reached prefers s) (steps : Nat) :
    g.Reached prefers (g.advance prefers steps s) := by
  induction steps generalizing s with
  | zero => exact h
  | succ steps ih =>
    rw [Dependencies.advance]
    split
    · exact h
    · rename_i i hnext
      exact ih (h.place hnext)

end Reached

end Dependencies

/-! ### Dependencies and orders -/

/-- Whether formula `i` depends on formula `j`: it refers to its name, and no later formula has
that name. -/
def DependsOn (formulas : List Formula) (i j : Nat) : Prop :=
  ∃ f g, formulas[i]? = some f ∧ formulas[j]? = some g ∧ g.name ∈ f.references ∧
    ∀ k h, j < k → formulas[k]? = some h → h.name ≠ g.name

/-- An order of all formulas in which each comes after those that it depends on. -/
structure IsOrder (formulas : List Formula) (order : List Nat) : Prop where
  perm : order.Perm (List.range formulas.length)
  after : ∀ {before i rest}, order = before ++ i :: rest → ∀ j, DependsOn formulas i j → j ∈ before

variable {formulas : List Formula}

theorem needs_iff_dependsOn {i j : Nat} :
    (dependencies formulas).Needs i j ↔ DependsOn formulas i j := by
  rw [needs_dependencies_iff]
  constructor
  · rintro ⟨f, hf, name, hname, hj⟩
    obtain ⟨hbears, hlast⟩ := lastBearer?_eq_some_iff.mp hj
    rw [List.getElem?_map, Option.map_eq_some_iff] at hbears
    obtain ⟨g, hg, rfl⟩ := hbears
    refine ⟨f, g, hf, hg, hname, fun k h hk hh hsame => hlast k hk ?_⟩
    rw [List.getElem?_map, hh, Option.map_some, hsame]
  · rintro ⟨f, g, hf, hg, hname, hlast⟩
    refine ⟨f, hf, g.name, hname, lastBearer?_eq_some_iff.mpr ⟨?_, fun k hk hsame => ?_⟩⟩
    · rw [List.getElem?_map, hg, Option.map_some]
    · rw [List.getElem?_map, Option.map_eq_some_iff] at hsame
      obtain ⟨h, hh, hsame⟩ := hsame
      exact hlast k h hk hh hsame

theorem transGen_needs_iff {i j : Nat} :
    TransGen (dependencies formulas).Needs i j ↔ TransGen (DependsOn formulas) i j := by
  have heq : (dependencies formulas).Needs = DependsOn formulas := by
    funext i j
    exact propext needs_iff_dependsOn
  rw [heq]

/-! ### When there is an order -/

/-- What is found for formulas that can all be classified. -/
theorem evaluationOrder_of_mapM {comparisons : List Bool}
    (h : formulas.mapM Formula.isComparison = .ok comparisons) :
    evaluationOrder formulas =
      if (dependencies formulas).isCyclic then
        .error (.cycle ((formulas.zipIdx.filter fun p =>
          (dependencies formulas).onCycle p.2).map fun p => p.1.name))
      else .ok ((dependencies formulas).order (comesBefore comparisons)) := by
  rw [evaluationOrder, h]

theorem isCyclic_dependencies_iff :
    (dependencies formulas).isCyclic = true ↔ ∃ i, TransGen (DependsOn formulas) i i := by
  rw [Dependencies.isCyclic_iff (isProper_dependencies formulas)]
  exact exists_congr fun i => transGen_needs_iff

/-- Where an order is found all formulas can be classified, none depends on itself, and the order is
that of the search. -/
theorem exists_of_evaluationOrder {order : List Nat} (h : evaluationOrder formulas = .ok order) :
    ∃ comparisons, formulas.mapM Formula.isComparison = .ok comparisons ∧
      (∀ i, ¬ TransGen (dependencies formulas).Needs i i) ∧
      order = (dependencies formulas).order (comesBefore comparisons) := by
  cases hcomparisons : formulas.mapM Formula.isComparison with
  | error e =>
    rw [evaluationOrder, hcomparisons] at h
    cases h
  | ok comparisons =>
    rw [evaluationOrder_of_mapM hcomparisons] at h
    split at h
    · cases h
    · rename_i hcyclic
      refine ⟨comparisons, rfl, fun i hi => hcyclic ?_, (Except.ok.inj h).symm⟩
      exact (Dependencies.isCyclic_iff (isProper_dependencies formulas)).mpr ⟨i, hi⟩

/-- The order that is found is one of all formulas, each after those that it depends on. -/
theorem isOrder_of_evaluationOrder {order : List Nat} (h : evaluationOrder formulas = .ok order) :
    IsOrder formulas order := by
  have hg := isProper_dependencies formulas
  obtain ⟨comparisons, -, hacyclic, rfl⟩ := exists_of_evaluationOrder h
  refine ⟨?_, fun heq j hdepends => ?_⟩
  · rw [← size_dependencies]
    exact Dependencies.order_perm hg hacyclic _
  · exact Dependencies.mem_before_of_order_eq hg heq (needs_iff_dependsOn.mpr hdepends)

/-- The first failure in a list is reported. -/
theorem mapM_eq_error {α β ε : Type} {F : α → Except ε β} {l : List α} {i : Nat} {a : α} {e : ε}
    (hi : l[i]? = some a) (ha : F a = .error e)
    (hbefore : ∀ j b, j < i → l[j]? = some b → ∃ c, F b = .ok c) : l.mapM F = .error e := by
  induction l generalizing i with
  | nil => cases hi
  | cons b rest ih =>
    rw [List.mapM_cons]
    cases i with
    | zero =>
      obtain rfl : b = a := Option.some.inj hi
      rw [ha]
      rfl
    | succ i =>
      obtain ⟨c, hc⟩ := hbefore 0 b (Nat.succ_pos i) rfl
      rw [hc, ih hi fun j b' hj hb' => hbefore (j + 1) b' (Nat.succ_lt_succ hj) hb']
      rfl

/-- A formula that is not generated is reported if those before it are generated. -/
theorem evaluationOrder_eq_notGenerated {i : Nat} {f : Formula} (hi : formulas[i]? = some f)
    (hf : f.program = []) (hbefore : ∀ j g, j < i → formulas[j]? = some g → g.IsGenerated) :
    evaluationOrder formulas = .error (.notGenerated f.name) := by
  have herror := mapM_eq_error hi (Formula.isComparison_of_program_eq_nil hf) fun j g hj hg =>
    (hbefore j g hj hg).exists_isComparison
  rw [evaluationOrder, herror]

/-- What the search for an order of formulas does, given which one is preferred. -/
structure Searches (formulas : List Formula) (prefers : Nat → Nat → Bool) : Prop where
  /-- Whatever depends on the formula that gets the next place has been waiting for it. -/
  positive : ∀ s i, (dependencies formulas).Reached prefers s →
    Dependencies.first? prefers s.ready = some i → ∀ d, DependsOn formulas d i →
      0 < s.waiting.getD d 0
  /-- Where no formula depends on itself, the search does not stop before all have a place. -/
  complete : (∀ i, ¬ TransGen (DependsOn formulas) i i) →
    ∀ s, (dependencies formulas).Reached prefers s → Dependencies.first? prefers s.ready = none →
      s.placed.Perm (List.range formulas.length)
  /-- It stops then, and the order is that of the places. -/
  stops : (∀ i, ¬ TransGen (DependsOn formulas) i i) →
    ∃ s, (dependencies formulas).Reached prefers s ∧ Dependencies.first? prefers s.ready = none ∧
      evaluationOrder formulas = .ok s.placed

/-- What is true of the order of evaluation of formulas that can all be classified. -/
structure HasOrder (formulas : List Formula) : Prop where
  /-- There is one when no formula depends on itself. -/
  exists_iff : (∃ order, evaluationOrder formulas = .ok order) ↔
    ∀ i, ¬ TransGen (DependsOn formulas) i i
  /-- It has every formula once, each after those that it depends on. -/
  isOrder : ∀ order, evaluationOrder formulas = .ok order → IsOrder formulas order
  /-- It is searched for with numbers before truth values. -/
  searches : ∃ comparisons, formulas.mapM Formula.isComparison = .ok comparisons ∧
    Searches formulas (comesBefore comparisons)

theorem searches_of_mapM {comparisons : List Bool}
    (h : formulas.mapM Formula.isComparison = .ok comparisons) :
    Searches formulas (comesBefore comparisons) := by
  have hg := isProper_dependencies formulas
  refine ⟨fun s i hs hnext d hd => ?_, fun hacyclic s hs hstop => ?_, fun hacyclic => ?_⟩
  · exact hs.pos_waiting hg hnext (needs_iff_dependsOn.mpr hd)
  · rw [← size_dependencies]
    exact (hs.sound hg).perm_of_ready_eq_nil hg (fun i hi => hacyclic i (transGen_needs_iff.mp hi))
      (Dependencies.eq_nil_of_first? hstop)
  · refine ⟨_, Dependencies.Reached.start.advance (dependencies formulas).size, ?_, ?_⟩
    · rw [Dependencies.ready_advance_start hg]
      rfl
    · rw [evaluationOrder_of_mapM h]
      exact if_neg fun hcyclic => (isCyclic_dependencies_iff.mp hcyclic).elim hacyclic

theorem hasOrder_of_classified
    (h : ∀ f ∈ formulas, ∃ comparison, f.isComparison = .ok comparison) :
    HasOrder formulas := by
  obtain ⟨comparisons, hcomparisons⟩ := exists_mapM_eq_ok h
  have hsearches := searches_of_mapM hcomparisons
  refine ⟨⟨?_, fun hacyclic => ?_⟩, fun _ => isOrder_of_evaluationOrder,
    comparisons, hcomparisons, hsearches⟩
  · rintro ⟨order, horder⟩ i hi
    have hcyclic := isCyclic_dependencies_iff.mpr ⟨i, hi⟩
    rw [evaluationOrder_of_mapM hcomparisons, if_pos hcyclic] at horder
    cases horder
  · obtain ⟨s, -, -, horder⟩ := hsearches.stops hacyclic
    exact ⟨s.placed, horder⟩

/-- **The order of evaluation.** Of formulas that are all generated there is an order, unless one
depends on itself; it has every formula once, after those that it depends on, and the search for it
neither lowers a number below zero nor leaves a formula out. Otherwise the first formula that is not
generated is reported, whatever depends on what. -/
theorem evaluationOrder_of_made (hmade : ∀ f ∈ formulas, f.Made) :
    ((∀ f ∈ formulas, f.IsGenerated) → HasOrder formulas) ∧
      ∀ (i : Nat) (f : Formula), formulas[i]? = some f → ¬ f.IsGenerated →
        (∀ (j : Nat) (g : Formula), j < i → formulas[j]? = some g → g.IsGenerated) →
        evaluationOrder formulas = .error (.notGenerated f.name) := by
  refine ⟨fun hgenerated => ?_, fun i f hi hf hbefore => ?_⟩
  · exact hasOrder_of_classified fun f hf => (hgenerated f hf).exists_isComparison
  · have hprogram := (hmade f (List.mem_of_getElem? hi)).isGenerated_or_eq_nil.resolve_left hf
    exact evaluationOrder_eq_notGenerated hi hprogram hbefore

/-- A formula that refers to another one, alone, before that one is generated, and beside one that
refers back. -/
theorem evaluationOrder_of_two :
    ∃ f g h : Formula, f.Made ∧ g.Made ∧ h.Made ∧ f.references = [g.name] ∧
      h.references = [f.name] ∧ h.name = g.name ∧ (∃ order, evaluationOrder [f] = .ok order) ∧
      evaluationOrder [f, g] = .error (.notGenerated "b") ∧
      ¬ ∃ order, evaluationOrder [f, h] = .ok order := by
  have ha : parse .sole "a" = .ok ⟨[.reference "a"], [.reference "a"]⟩ :=
    parse_name (show Text.visible "a" = ['a'] by decide) rfl (by simp) (by decide)
  have hb : parse .sole "b" = .ok ⟨[.reference "b"], [.reference "b"]⟩ :=
    parse_name (show Text.visible "b" = ['b'] by decide) rfl (by simp) (by decide)
  have hf := Formula.Made.of_parse "a" hb
  have hh := Formula.Made.of_parse "b" ha
  have hg := Formula.Made.ofText "b" .sole "a"
  have hnot : ¬ (Formula.ofText "b" .sole "a").IsGenerated := fun h => h.program_ne_nil rfl
  refine ⟨_, _, _, hf, hg, hh, rfl, rfl, rfl, ?_, ?_, ?_⟩
  · have horder := (evaluationOrder_of_made (List.forall_mem_singleton.mpr hf)).1
      (List.forall_mem_singleton.mpr hb)
    refine horder.exists_iff.mpr fun i hi => ?_
    obtain ⟨j, ⟨f, g, hf, hg, hname, -⟩, -⟩ := TransGen.head'_iff.mp hi
    obtain rfl := List.mem_singleton.mp (List.mem_of_getElem? hf)
    obtain rfl := List.mem_singleton.mp (List.mem_of_getElem? hg)
    exact absurd hname (by decide)
  · have hmade := List.forall_mem_cons.mpr ⟨hf, List.forall_mem_singleton.mpr hg⟩
    refine (evaluationOrder_of_made hmade).2 1 _ rfl hnot fun j g hj hg => ?_
    obtain rfl := Nat.lt_one_iff.mp hj
    cases hg
    exact hb
  · have hmade := List.forall_mem_cons.mpr ⟨hf, List.forall_mem_singleton.mpr hh⟩
    have horder := (evaluationOrder_of_made hmade).1
      (List.forall_mem_cons.mpr ⟨hb, List.forall_mem_singleton.mpr ha⟩)
    intro hexists
    have hlast : ∀ {f h g : Formula} (k : Nat), 1 < k → [f, h][k]? = some g → False := by
      intro f h g k hk hg
      rw [List.getElem?_eq_none hk] at hg
      cases hg
    refine horder.exists_iff.mp hexists 0 (.tail (.single (b := 1) ?_) ?_)
    · exact ⟨_, _, rfl, rfl, List.mem_singleton_self _, fun k _ hk hg => (hlast k hk hg).elim⟩
    · refine ⟨_, _, rfl, rfl, List.mem_singleton_self _, fun k g hk hg hname => ?_⟩
      obtain rfl | hk := Nat.eq_or_lt_of_le hk
      · cases hg
        exact absurd hname (by decide)
      · exact hlast k hk hg

end Formulary
