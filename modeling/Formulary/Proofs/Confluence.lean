import Formulary.Proofs.EvaluationOrder
import Formulary.Session

/-!
# Publishing in any order

Formulas that refer to each other are evaluated one after another, and each value is bound to the
name of its formula, where the formula looks names up, before the next formula is evaluated. They
may share one provider or not. Between formulas that do not depend on each other the order is free,
and it makes no difference: each formula is evaluated where all that it refers to has been
published, and none of this changes afterwards.

What makes no difference is told without any order. There are results that fit together, each the
value that a formula has where names stand for the results of the others. Whatever has been done of
an order, the tables are what these results say about the formulas that have been evaluated.

## Main definitions

* `Session.publish`, `Session.publishAll` — evaluating formulas and binding their values
* `Session.Fits` — whether results fit together
* `Session.Reaches` — what a session has come to when some formulas have been evaluated

## Main results

* `reaches_publish` — one formula more
* `publishAll_of_isOrder` — all orders end in one session, which gives the same results again
-/

namespace Formulary

open Relation

namespace Session

/-- Evaluates a formula and keeps its value; then has its provider bind the value, if there is one,
to its name. -/
def publish (lib : MathLibrary) (s : Session) (i : Nat) : Session × Reply :=
  match s.formulas[i]?, s.perform lib (.update i) with
  | some f, (s', .evaluated (.ok v)) =>
    ((s'.perform lib (.bind f.provider f.name v)).1, .evaluated (.ok v))
  | _, outcome => outcome

/-- Publishes formulas one after another; what comes of each is told with its number. -/
def publishAll (lib : MathLibrary) (s : Session) : List Nat → Session × List (Nat × Reply)
  | [] => (s, [])
  | i :: rest =>
    let one := s.publish lib i
    let others := one.1.publishAll lib rest
    (others.1, (i, one.2) :: others.2)

/-! ### Results -/

variable {lib : MathLibrary} {s s' s'' : Session} {results : Nat → Except EvalError Float}
  {done : List Nat} {i : Nat} {f : Formula}

/-- What names stand for when some formulas have been evaluated with the given results: their
values, for the providers of the formulas, and what the names were bound to in the beginning. -/
def bindingsAfter (s : Session) (results : Nat → Except EvalError Float) (done : List Nat) :
    Bindings := fun provider name =>
  match lastBearer? name (s.formulas.map Formula.name) with
  | some i =>
    if i ∈ done ∧ s.formulas[i]?.map Formula.provider = some provider then
      (results i).toOption.or (s.bindings provider name)
    else s.bindings provider name
  | none => s.bindings provider name

/-- The formulas when some of them have been evaluated with the given results. -/
def formulasAfter (s : Session) (results : Nat → Except EvalError Float) (done : List Nat) :
    List Formula :=
  s.formulas.mapIdx fun i f =>
    if i ∈ done then { f with lastValue := (results i).toOption.or f.lastValue } else f

/-- The result of a formula when all have been evaluated with the given results. -/
def resultOf (lib : MathLibrary) (s : Session) (results : Nat → Except EvalError Float)
    (f : Formula) : Except EvalError Float :=
  valueOf lib (f.environment (s.bindingsAfter results (List.range s.formulas.length))) f.program

/-- Whether results are those that the formulas have where names stand for the results. -/
def Fits (lib : MathLibrary) (s : Session) (results : Nat → Except EvalError Float) : Prop :=
  ∀ i f, s.formulas[i]? = some f → results i = s.resultOf lib results f

/-- What a session has come to when some formulas have been evaluated with the given results. -/
structure Reaches (s : Session) (results : Nat → Except EvalError Float) (done : List Nat)
    (s' : Session) : Prop where
  bindings : s'.bindings = s.bindingsAfter results done
  formulas : s'.formulas = s.formulasAfter results done

theorem reaches_nil (s : Session) (results : Nat → Except EvalError Float) :
    s.Reaches results [] s where
  bindings := by
    funext provider name
    rw [bindingsAfter]
    split
    · exact (if_neg fun h => List.not_mem_nil h.1).symm
    · rfl
  formulas := by
    refine List.ext_getElem? fun i => ?_
    rw [formulasAfter, List.getElem?_mapIdx]
    simp

/-- What has been reached is told by what has been done, in whatever order. -/
theorem Reaches.unique {done' : List Nat} (h : s.Reaches results done s')
    (h' : s.Reaches results done' s'') (hdone : ∀ i, i ∈ done ↔ i ∈ done') : s' = s'' := by
  have hbindings : s.bindingsAfter results done = s.bindingsAfter results done' := by
    funext provider name
    simp only [bindingsAfter, hdone]
  have hformulas : s.formulasAfter results done = s.formulasAfter results done' := by
    simp only [formulasAfter, hdone]
  obtain ⟨tables, formulas⟩ := s'
  obtain ⟨tables', formulas'⟩ := s''
  obtain rfl : tables = tables' := by
    funext provider
    exact Table.ext_get? fun name =>
      congrFun₂ (h.bindings.trans (hbindings.trans h'.bindings.symm)) provider name
  obtain rfl : formulas = formulas' := h.formulas.trans (hformulas.trans h'.formulas.symm)
  rfl

/-! ### One formula -/

/-- A formula with a name of its own is the last one that bears it. -/
theorem lastBearer?_of_nodup (hnames : (s.formulas.map Formula.name).Nodup)
    (hf : s.formulas[i]? = some f) :
    lastBearer? f.name (s.formulas.map Formula.name) = some i := by
  have hi : (s.formulas.map Formula.name)[i]? = some f.name := by
    rw [List.getElem?_map, hf, Option.map_some]
  refine lastBearer?_eq_some_iff.mpr ⟨hi, fun j hj hsame => ?_⟩
  have hlt := (List.getElem?_eq_some_iff.mp hi).1
  exact absurd ((List.nodup_iff_getElem?_ne_getElem?.mp hnames i j hj
    (List.getElem?_eq_some_iff.mp hsame).1)) (by rw [hi, hsame]; simp)

theorem bindingsAfter_concat (hnames : (s.formulas.map Formula.name).Nodup)
    (hf : s.formulas[i]? = some f) (hi : i ∉ done) (provider : Provider) (name : String) :
    s.bindingsAfter results (done ++ [i]) provider name =
      if provider = f.provider ∧ name = f.name then
        (results i).toOption.or (s.bindingsAfter results done provider name)
      else s.bindingsAfter results done provider name := by
  by_cases hname : name = f.name
  · subst hname
    rw [bindingsAfter, bindingsAfter, lastBearer?_of_nodup hnames hf]
    simp [hi, hf, eq_comm]
  · rw [if_neg fun h => hname h.2, bindingsAfter, bindingsAfter]
    split
    · rename_i j hj
      have hji : j ≠ i := by
        rintro rfl
        have := (lastBearer?_eq_some_iff.mp hj).1
        rw [List.getElem?_map, hf, Option.map_some] at this
        exact hname (Option.some.inj this).symm
      simp [hji]
    · rfl

theorem formulasAfter_concat (hf : s.formulas[i]? = some f) :
    s.formulasAfter results (done ++ [i]) =
      (s.formulasAfter results done).set i
        { f with lastValue := (results i).toOption.or f.lastValue } := by
  refine List.ext_getElem? fun j => ?_
  rw [List.getElem?_set, formulasAfter, formulasAfter, List.getElem?_mapIdx, List.getElem?_mapIdx]
  by_cases hij : i = j
  · subst hij
    rw [if_pos rfl, List.length_mapIdx, if_pos (List.getElem?_eq_some_iff.mp hf).1, hf]
    simp
  · simp [hij, Ne.symm hij]

theorem getElem?_formulasAfter (hf : s.formulas[i]? = some f) (hi : i ∉ done) :
    (s.formulasAfter results done)[i]? = some f := by
  rw [formulasAfter, List.getElem?_mapIdx, hf]
  simp [hi]

/-- A formula refers to no formula but those that it depends on, so that it has its result as soon
as these have been evaluated. -/
theorem valueOf_bindingsAfter (hfits : s.Fits lib results) (hf : s.formulas[i]? = some f)
    (hgenerated : f.IsGenerated) (hdone : ∀ j, DependsOn s.formulas i j → j ∈ done) :
    valueOf lib (f.environment (s.bindingsAfter results done)) f.program = results i := by
  rw [hfits i f hf, resultOf]
  refine valueOf_congr hgenerated.sharesProvider.program rfl fun name hname => ?_
  show s.bindingsAfter results done f.provider name = s.bindingsAfter results _ f.provider name
  rw [bindingsAfter, bindingsAfter]
  split
  · rename_i j hj
    have hneeds := needs_dependencies_iff.mpr ⟨f, hf, name, hname, hj⟩
    have hlt := (isProper_dependencies s.formulas).lt_size hneeds
    rw [size_dependencies] at hlt
    simp only [hdone j (needs_iff_dependsOn.mp hneeds), List.mem_range.mpr hlt]
  · rfl

/-- What publishing a formula does. -/
theorem publish_eq (hf : s.formulas[i]? = some f) {result : Except EvalError Float}
    (hresult : f.value lib s.bindings = result) :
    s.publish lib i =
      (let updated : Session :=
        ⟨s.tables, s.formulas.set i { f with lastValue := result.toOption.or f.lastValue }⟩
      result.toOption.elim updated fun v =>
        updated.setTable f.provider ((s.tables f.provider).insert f.name v),
      .evaluated result) := by
  rw [publish, perform, alter, hf]
  simp only [Formula.update_eq, hresult]
  cases result <;> rfl

/-- What providers answer after a value has been bound. -/
theorem bindings_setTable_insert (provider : Provider) (name : String) (v : Float)
    (provider' : Provider) (name' : String) :
    (s.setTable provider ((s.tables provider).insert name v)).bindings provider' name' =
      if provider' = provider ∧ name' = name then some v else s.bindings provider' name' := by
  rw [bindings_setTable, Table.get?_insert]
  split
  · rename_i hprovider
    subst hprovider
    simp [bindings]
  · rename_i hprovider
    rw [if_neg fun h => hprovider h.1]

/-- **One formula more.** A formula that is published after those that it depends on has its
result, and what has been reached then is what the results tell. -/
theorem reaches_publish (hnames : (s.formulas.map Formula.name).Nodup)
    (hfits : s.Fits lib results) (hs : s.Reaches results done s')
    (hf : s.formulas[i]? = some f) (hgenerated : f.IsGenerated) (hi : i ∉ done)
    (hdone : ∀ j, DependsOn s.formulas i j → j ∈ done) :
    s.Reaches results (done ++ [i]) (s'.publish lib i).1 ∧
      (s'.publish lib i).2 = .evaluated (results i) := by
  have hf' : s'.formulas[i]? = some f := by
    rw [hs.formulas]
    exact getElem?_formulasAfter hf hi
  have hvalue : f.value lib s'.bindings = results i := by
    rw [hgenerated.value_eq, hs.bindings, valueOf_bindingsAfter hfits hf hgenerated hdone]
  rw [publish_eq hf' hvalue]
  refine ⟨⟨?_, ?_⟩, rfl⟩
  · funext provider name
    rw [bindingsAfter_concat hnames hf hi, ← hs.bindings]
    cases results i with
    | ok v => exact bindings_setTable_insert f.provider f.name v provider name
    | error e => exact (ite_self _).symm
  · rw [formulasAfter_concat hf, ← hs.formulas]
    cases results i <;> rfl

/-! ### All formulas -/

/-- **All formulas.** What is left of an order is published with the results that the formulas
have. -/
theorem reaches_publishAll (hgenerated : ∀ f ∈ s.formulas, f.IsGenerated)
    (hnames : (s.formulas.map Formula.name).Nodup) (hfits : s.Fits lib results)
    {order rest : List Nat} (horder : IsOrder s.formulas order) (heq : order = done ++ rest)
    (hs : s.Reaches results done s') :
    s.Reaches results order (s'.publishAll lib rest).1 ∧
      (s'.publishAll lib rest).2 = rest.map fun i => (i, .evaluated (results i)) := by
  induction rest generalizing done s' with
  | nil =>
    rw [List.append_nil] at heq
    exact ⟨heq ▸ hs, rfl⟩
  | cons i rest ih =>
    have hmem : i ∈ order := heq ▸ List.mem_append_right done List.mem_cons_self
    have hi : i ∉ done := by
      have hnodup : (done ++ i :: rest).Nodup := heq ▸ horder.perm.nodup_iff.mpr List.nodup_range
      exact fun hdone => (List.disjoint_of_nodup_append hnodup) hdone List.mem_cons_self
    have hlt : i < s.formulas.length := List.mem_range.mp (horder.perm.mem_iff.mp hmem)
    have hf := List.getElem?_eq_getElem hlt
    obtain ⟨hreaches, hreply⟩ := reaches_publish hnames hfits hs hf
      (hgenerated _ (List.getElem_mem hlt)) hi (horder.after heq)
    obtain ⟨hall, hreplies⟩ := ih (by rw [heq, List.append_assoc, List.singleton_append]) hreaches
    refine ⟨hall, ?_⟩
    rw [publishAll, hreply, hreplies]
    rfl

/-- The result of a formula is told by the results of those that it depends on. -/
theorem resultOf_congr {results' : Nat → Except EvalError Float} (hf : s.formulas[i]? = some f)
    (hgenerated : f.IsGenerated)
    (hsame : ∀ j, (dependencies s.formulas).Needs i j → results j = results' j) :
    s.resultOf lib results f = s.resultOf lib results' f := by
  refine valueOf_congr hgenerated.sharesProvider.program rfl fun name hname => ?_
  show s.bindingsAfter results _ f.provider name = s.bindingsAfter results' _ f.provider name
  rw [bindingsAfter, bindingsAfter]
  split
  · rename_i j hj
    rw [hsame j (needs_dependencies_iff.mpr ⟨f, hf, name, hname, hj⟩)]
  · rfl

/-- There are results that fit together where no formula depends on itself. -/
theorem exists_fits (lib : MathLibrary) (hgenerated : ∀ f ∈ s.formulas, f.IsGenerated)
    (hacyclic : ∀ i, ¬ TransGen (DependsOn s.formulas) i i) : ∃ results, s.Fits lib results := by
  have hwf : WellFounded fun j i => (dependencies s.formulas).Needs i j :=
    wellFounded_of_acyclic (isProper_dependencies s.formulas).lt_size fun i hi =>
      hacyclic i (transGen_needs_iff.mp hi)
  have : Inhabited (Except EvalError Float) := ⟨.ok 0⟩
  -- What is at a place without a formula does not matter.
  obtain ⟨results, hresults, -⟩ := existsUnique_eq_of_local
    (F := fun results i => (s.formulas[i]?).elim (.ok 0) (s.resultOf lib results)) hwf
    fun results results' i hsame => by
      cases hf : s.formulas[i]? with
      | none => rfl
      | some f => exact resultOf_congr hf (hgenerated f (List.mem_of_getElem? hf)) hsame
  refine ⟨results, fun i f hf => (hresults i).trans ?_⟩
  rw [hf, Option.elim_some]

/-- When all formulas have been evaluated, each has its result again. -/
theorem value_of_reaches (hgenerated : ∀ f ∈ s.formulas, f.IsGenerated)
    (hfits : s.Fits lib results) {order : List Nat} (horder : IsOrder s.formulas order)
    (hs : s.Reaches results order s') (hi : i ∈ order) :
    (s'.perform lib (.value i)).2 = .evaluated (results i) := by
  have hlt : i < s.formulas.length := List.mem_range.mp (horder.perm.mem_iff.mp hi)
  have hf := List.getElem?_eq_getElem hlt
  have hf' : ∃ v, s'.formulas[i]? = some { s.formulas[i] with lastValue := v } := by
    rw [hs.formulas, formulasAfter, List.getElem?_mapIdx, hf, Option.map_some, if_pos hi]
    exact ⟨_, rfl⟩
  obtain ⟨v, hf'⟩ := hf'
  have hvalue : s.formulas[i].value lib s'.bindings = results i := by
    have hformula := hgenerated _ (List.getElem_mem hlt)
    rw [hformula.value_eq, hs.bindings]
    refine valueOf_bindingsAfter hfits hf hformula fun j hj => horder.perm.mem_iff.mpr ?_
    rw [List.mem_range, ← size_dependencies]
    exact (isProper_dependencies s.formulas).lt_size (needs_iff_dependsOn.mpr hj)
  rw [perform, alter, hf']
  exact congrArg Reply.evaluated hvalue

/-- **The order makes no difference.** However formulas are published, each after those that it
depends on, the session ends as the same one, and each formula has the result that it has when it is
evaluated again in the end. The order of evaluation is one of these orders. -/
theorem publishAll_of_isOrder (lib : MathLibrary) (hgenerated : ∀ f ∈ s.formulas, f.IsGenerated)
    (hnames : (s.formulas.map Formula.name).Nodup)
    (hacyclic : ∀ i, ¬ TransGen (DependsOn s.formulas) i i) :
    (∃ order, evaluationOrder s.formulas = .ok order ∧ IsOrder s.formulas order) ∧
      ∃ final : Session, ∀ order, IsOrder s.formulas order →
        s.publishAll lib order
          = (final, order.map fun i => (i, (final.perform lib (.value i)).2)) := by
  have hfound := hasOrder_of_classified fun f hf => (hgenerated f hf).exists_isComparison
  obtain ⟨order₀, h₀⟩ := hfound.exists_iff.mpr hacyclic
  have horder₀ := hfound.isOrder order₀ h₀
  refine ⟨⟨order₀, h₀, horder₀⟩, (s.publishAll lib order₀).1, fun order horder => ?_⟩
  obtain ⟨results, hfits⟩ := exists_fits lib hgenerated hacyclic
  have key : ∀ {order}, IsOrder s.formulas order → _ := fun horder =>
    reaches_publishAll hgenerated hnames hfits horder (List.nil_append _).symm
      (reaches_nil s results)
  obtain ⟨hreaches, hreplies⟩ := key horder
  have hfinal : (s.publishAll lib order).1 = (s.publishAll lib order₀).1 :=
    hreaches.unique (key horder₀).1 fun i =>
      (horder.perm.trans horder₀.perm.symm).mem_iff
  refine Prod.ext hfinal ?_
  rw [hreplies, ← hfinal]
  refine List.map_congr_left fun i hi => ?_
  rw [value_of_reaches hgenerated hfits horder hreaches hi]

/-- A formula that refers to another one, and one without a value, in two orders. -/
theorem publishAll_in_two_orders :
    ∃ s final : Session, s.formulas.map (fun f => (f.name, f.source))
        = [("a", "b"), ("b", "x"), ("c", "y")] ∧
      ∀ order, order = [1, 0, 2] ∨ order = [2, 1, 0] →
        s.publishAll .system order
          = (final, order.map fun i => (i, (final.perform .system (.value i)).2)) := by
  have hb : parse .sole "b" = .ok ⟨[.reference "b"], [.reference "b"]⟩ :=
    parse_name (show Text.visible "b" = ['b'] by decide) rfl (by simp) (by decide)
  have hx : parse .sole "x" = .ok ⟨[.reference "x"], [.reference "x"]⟩ :=
    parse_name (show Text.visible "x" = ['x'] by decide) rfl (by simp) (by decide)
  have hy : parse .sole "y" = .ok ⟨[.reference "y"], [.reference "y"]⟩ :=
    parse_name (show Text.visible "y" = ['y'] by decide) rfl (by simp) (by decide)
  let formulas : List Formula :=
    [⟨"a", .sole, "b", [.reference "b"], [.reference "b"], none⟩,
      ⟨"b", .sole, "x", [.reference "x"], [.reference "x"], none⟩,
      ⟨"c", .sole, "y", [.reference "y"], [.reference "y"], none⟩]
  have hdependencies : dependencies formulas = ⟨[[1], [], []]⟩ := by decide
  have hneeds : ∀ i j, DependsOn formulas i j → i = 0 ∧ j = 1 := by
    intro i j hij
    rw [← needs_iff_dependsOn, hdependencies] at hij
    match i, hij with
    | 0, hij => exact ⟨rfl, List.mem_singleton.mp hij⟩
    | 1, hij | 2, hij | i + 3, hij => cases hij
  have hacyclic : ∀ i, ¬ TransGen (DependsOn formulas) i i := by
    intro i hi
    obtain ⟨j, hij, hji⟩ := TransGen.head'_iff.mp hi
    obtain ⟨rfl, rfl⟩ := hneeds i j hij
    obtain h | ⟨k, hjk, -⟩ := hji.cases_head
    · cases h
    · cases (hneeds 1 k hjk).1
  obtain ⟨-, final, hfinal⟩ := publishAll_of_isOrder
    (s := ⟨fun _ => .ofBindings [("x", 2.0)], formulas⟩) .system
    (by simpa [formulas] using ⟨hb, hx, hy⟩) (by decide) hacyclic
  refine ⟨_, final, rfl, fun order horder => hfinal order ⟨?_, fun {before i rest} heq j hij => ?_⟩⟩
  · rcases horder with rfl | rfl <;> decide
  · obtain ⟨rfl, rfl⟩ := hneeds i j hij
    have hmem : 1 ∈ before ++ 0 :: rest := by
      rw [← heq]
      rcases horder with rfl | rfl <;> decide
    refine (List.mem_append.mp hmem).resolve_right fun hrest => ?_
    have hrest : 1 ∈ rest := (List.mem_cons.mp hrest).resolve_left (by decide)
    have hsublist : [0, 1].Sublist order := by
      rw [heq]
      exact ((List.singleton_sublist.mpr hrest).cons_cons 0).trans (List.sublist_append_right _ _)
    rcases horder with rfl | rfl <;> exact absurd hsublist (by decide)

end Session

end Formulary
