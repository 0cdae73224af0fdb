import Formulary.Proofs.Circles
import Formulary.Schedule

/-!
# When there is an order of evaluation

A formula depends on the last formulas that bear the names it refers to. These are listed once each
and are among the formulas, so that the search for an order finds one where no formula depends on
itself. The only other thing that can go wrong is that a formula cannot be classified, which never
happens to a formula that has been generated.

## Main results

* `lastBearer?_eq_some_iff` — the last formula with a name
* `needs_dependencies_iff` — what a formula depends on
* `evaluationOrder_eq_order` — where nothing is wrong the order is that of the search
-/

namespace Formulary

open Relation

/-! ### Names -/

theorem lastBearer?_eq_none_iff {name : String} {names : List String} :
    lastBearer? name names = none ↔ name ∉ names := by
  induction names with
  | nil => simp [lastBearer?]
  | cons n rest ih =>
    rw [lastBearer?, List.mem_cons, not_or, ← ih]
    cases hrest : lastBearer? name rest with
    | some i => simp
    | none =>
      by_cases hn : n = name
      · simp [hn]
      · simp [hn, Ne.symm hn]

/-- **The last one.** Of several formulas with one name the last one counts. -/
theorem lastBearer?_eq_some_iff {name : String} {names : List String} {i : Nat} :
    lastBearer? name names = some i ↔
      names[i]? = some name ∧ ∀ j, i < j → names[j]? ≠ some name := by
  induction names generalizing i with
  | nil => simp [lastBearer?]
  | cons n rest ih =>
    rw [lastBearer?]
    cases hrest : lastBearer? name rest with
    | some k =>
      obtain ⟨hk, hlast⟩ := ih.mp hrest
      constructor
      · rintro ⟨⟩
        refine ⟨hk, fun j hj => ?_⟩
        obtain ⟨j, rfl⟩ := Nat.exists_eq_succ_of_ne_zero (Nat.ne_zero_of_lt hj)
        exact hlast j (Nat.lt_of_succ_lt_succ hj)
      · rintro ⟨hi, hafter⟩
        cases i with
        | zero => exact absurd hk (hafter (k + 1) (Nat.succ_pos k))
        | succ i =>
          have := ih.mpr ⟨hi, fun j hj => hafter (j + 1) (Nat.succ_lt_succ hj)⟩
          rw [hrest] at this
          exact congrArg (Option.map (· + 1)) this
    | none =>
      have hnot : ∀ j, rest[j]? ≠ some name :=
        fun j hj => lastBearer?_eq_none_iff.mp hrest (List.mem_of_getElem? hj)
      constructor
      · intro h
        obtain ⟨hn, rfl⟩ : n = name ∧ 0 = i := by simpa using h
        refine ⟨congrArg some hn, fun j hj => ?_⟩
        obtain ⟨j, rfl⟩ := Nat.exists_eq_succ_of_ne_zero (Nat.ne_zero_of_lt hj)
        exact hnot j
      · rintro ⟨hi, -⟩
        cases i with
        | zero => exact if_pos (Option.some.inj hi)
        | succ i => exact absurd hi (hnot i)

/-! ### Dependencies of formulas -/

/-- A formula depends on the last bearers of the names that it refers to. -/
theorem needs_dependencies_iff {formulas : List Formula} {i j : Nat} :
    (dependencies formulas).Needs i j ↔ ∃ f, formulas[i]? = some f ∧
      ∃ name ∈ f.references, lastBearer? name (formulas.map Formula.name) = some j := by
  rw [Dependencies.Needs, Dependencies.of, dependencies, List.getD_eq_getElem?_getD,
    List.getElem?_map]
  cases formulas[i]? with
  | none => simp
  | some f => simp [List.mem_eraseDups, List.mem_filterMap]

@[simp] theorem size_dependencies (formulas : List Formula) :
    (dependencies formulas).size = formulas.length := by
  rw [dependencies, Dependencies.size, List.length_map]

theorem isProper_dependencies (formulas : List Formula) : (dependencies formulas).IsProper where
  nodup i := by
    rw [Dependencies.of, dependencies, List.getD_eq_getElem?_getD, List.getElem?_map]
    cases formulas[i]? with
    | none => exact List.nodup_nil
    | some f => exact nodup_eraseDups _
  lt_size := by
    intro i j h
    obtain ⟨f, -, name, -, hj⟩ := needs_dependencies_iff.mp h
    obtain ⟨hname, -⟩ := lastBearer?_eq_some_iff.mp hj
    rw [size_dependencies, ← List.length_map Formula.name]
    exact (List.getElem?_eq_some_iff.mp hname).1

/-! ### The order -/

theorem exists_mapM_eq_ok {formulas : List Formula}
    (h : ∀ f ∈ formulas, ∃ comparison, f.isComparison = .ok comparison) :
    ∃ comparisons, formulas.mapM Formula.isComparison = .ok comparisons := by
  induction formulas with
  | nil => exact ⟨[], rfl⟩
  | cons f rest ih =>
    obtain ⟨comparison, hf⟩ := h f List.mem_cons_self
    obtain ⟨comparisons, hrest⟩ := ih fun g hg => h g (List.mem_cons_of_mem _ hg)
    refine ⟨comparison :: comparisons, ?_⟩
    rw [List.mapM_cons, hf, hrest]
    rfl

/-- **There is an order** when every formula can be classified and none depends on itself. -/
theorem evaluationOrder_eq_order {formulas : List Formula}
    (hclassified : ∀ f ∈ formulas, ∃ comparison, f.isComparison = .ok comparison)
    (hacyclic : ∀ i, ¬ TransGen (dependencies formulas).Needs i i) :
    ∃ prefers, evaluationOrder formulas = .ok ((dependencies formulas).order prefers) := by
  obtain ⟨comparisons, hcomparisons⟩ := exists_mapM_eq_ok hclassified
  refine ⟨comesBefore comparisons, ?_⟩
  have hcyclic : ¬ (dependencies formulas).isCyclic = true := fun h => by
    obtain ⟨i, hi⟩ := (Dependencies.isCyclic_iff (isProper_dependencies formulas)).mp h
    exact hacyclic i hi
  rw [evaluationOrder, hcomparisons]
  exact if_neg hcyclic

end Formulary
