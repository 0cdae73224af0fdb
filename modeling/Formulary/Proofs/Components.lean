import Formulary.Proofs.EvaluationOrder
import Mathlib.Data.List.Flatten
import Mathlib.Data.List.Sort

/-!
# Which formulas are in circles

Where no order is found, the formulas that are reported are those that depend on themselves. There
are two ways to look for these: one formula after the other, by what it depends on through any
number of steps, or all at once, by strongly connected components. A formula depends on itself
exactly when it shares its component with another one or depends on itself directly, so that both
ways report the same formulas, however the components and what is in them are listed.

## Main definitions

* `Dependencies.IsComponents` — lists of the strongly connected components
* `Dependencies.members` — the things in components that are circles

## Main results

* `Dependencies.mem_members_iff` — these things are those that depend on themselves
* `evaluationOrder_eq_cycle_iff_of_members` — what components report is what is reported
* `evaluationOrder_eq_cycle_iff` — what is reported, however it is looked for
-/

namespace Formulary

open Relation

/-! ### Components -/

namespace Dependencies

variable {g : Dependencies} {components : List (List Nat)} {c : List Nat} {i j : Nat}

/-- Whether lists are the strongly connected components: everything is in one of them, once, and is
there with the things that it reaches and that reach it, through no steps or more. -/
structure IsComponents (g : Dependencies) (components : List (List Nat)) : Prop where
  perm : components.flatten.Perm (List.range g.size)
  mem_iff : ∀ c ∈ components, ∀ i ∈ c, ∀ j < g.size,
    (j ∈ c ↔ ReflTransGen g.Needs i j ∧ ReflTransGen g.Needs j i)

/-- Whether a component is a circle: it has more than one thing, or its only one needs itself. -/
def isCircle (g : Dependencies) (c : List Nat) : Bool :=
  1 < c.length || c.head?.any fun i => g.needs i i

/-- The things in components that are circles, in increasing order. -/
def members (g : Dependencies) (components : List (List Nat)) : List Nat :=
  (components.filter g.isCircle).flatten.insertionSort (· ≤ ·)

theorem reflTransGen_needs_iff (hg : g.IsProper) :
    ReflTransGen g.Needs i j ↔ j = i ∨ j ∈ g.reachable i := by
  rw [reflTransGen_iff_eq_or_transGen, mem_reachable_iff hg]

namespace IsComponents

variable (h : g.IsComponents components)

include h

theorem nodup_flatten : components.flatten.Nodup := h.perm.nodup_iff.mpr List.nodup_range

theorem nodup (hc : c ∈ components) : c.Nodup := (List.nodup_flatten.mp h.nodup_flatten).1 c hc

theorem lt_size (hc : c ∈ components) (hi : i ∈ c) : i < g.size :=
  List.mem_range.mp (h.perm.mem_iff.mp (List.mem_flatten_of_mem hc hi))

/-- Of two things in one component each depends on itself, by way of the other. -/
theorem transGen_of_ne (hc : c ∈ components) (hi : i ∈ c) (hj : j ∈ c) (hne : i ≠ j) :
    TransGen g.Needs i i := by
  obtain ⟨hij, hji⟩ := (h.mem_iff c hc i hi j (h.lt_size hc hj)).mp hj
  rcases reflTransGen_iff_eq_or_transGen.mp hij with heq | hij
  · exact absurd heq.symm hne
  · exact hij.trans_left hji

/-- A component that is a circle has only things in it that depend on themselves. -/
theorem transGen_of_isCircle (hc : c ∈ components) (hcircle : g.isCircle c = true) (hi : i ∈ c) :
    TransGen g.Needs i i := by
  by_cases hother : ∃ j ∈ c, i ≠ j
  · obtain ⟨j, hj, hne⟩ := hother
    exact h.transGen_of_ne hc hi hj hne
  · have honly : c ⊆ [i] := fun j hj =>
      List.mem_singleton.mpr (by_contra fun hne => hother ⟨j, hj, Ne.symm hne⟩)
    have hlength := (List.subperm_of_subset (h.nodup hc) honly).length_le
    rw [isCircle, Bool.or_eq_true, decide_eq_true_eq, Option.any_eq_true] at hcircle
    obtain ⟨k, hk, hneeds⟩ := hcircle.resolve_left (Nat.not_lt.mpr hlength)
    obtain rfl := List.mem_singleton.mp (honly (List.mem_of_head? hk))
    exact .single (needs_iff.mp hneeds)

/-- The component of a thing that depends on itself is a circle. -/
theorem isCircle_of_transGen (hg : g.IsProper) (hc : c ∈ components) (hi : i ∈ c)
    (hcircle : TransGen g.Needs i i) : g.isCircle c = true := by
  rw [isCircle, Bool.or_eq_true, decide_eq_true_eq]
  obtain ⟨k, hik, hki⟩ := TransGen.head'_iff.mp hcircle
  by_cases hsame : k = i
  · subst hsame
    cases c with
    | nil => cases hi
    | cons m rest =>
      cases rest with
      | nil =>
        obtain rfl := List.mem_singleton.mp hi
        exact .inr (needs_iff.mpr hik)
      | cons m' rest => exact .inl (by simp)
  · have hk : k ∈ c := (h.mem_iff c hc i hi k (hg.lt_size hik)).mpr ⟨.single hik, hki⟩
    have htwo : [i, k] ⊆ c := List.cons_subset.mpr ⟨hi, List.cons_subset.mpr ⟨hk, by simp⟩⟩
    have hnodup : [i, k].Nodup := by simp [Ne.symm hsame]
    exact .inl (List.subperm_of_subset hnodup htwo).length_le

end IsComponents

/-- **Components tell circles.** The things in components that are circles are those that depend on
themselves. -/
theorem mem_members_iff (hg : g.IsProper) (h : g.IsComponents components) :
    i ∈ g.members components ↔ TransGen g.Needs i i := by
  rw [members, (List.perm_insertionSort _ _).mem_iff, List.mem_flatten]
  constructor
  · rintro ⟨c, hc, hi⟩
    obtain ⟨hc, hcircle⟩ := List.mem_filter.mp hc
    exact h.transGen_of_isCircle hc hcircle hi
  · intro hcircle
    obtain ⟨k, -, hki⟩ := TransGen.tail'_iff.mp hcircle
    have hi : i ∈ components.flatten :=
      h.perm.mem_iff.mpr (List.mem_range.mpr (hg.lt_size hki))
    obtain ⟨c, hc, hi⟩ := List.mem_flatten.mp hi
    exact ⟨c, List.mem_filter.mpr ⟨hc, h.isCircle_of_transGen hg hc hi hcircle⟩, hi⟩

/-- They are listed once each, in increasing order. -/
theorem pairwise_members (h : g.IsComponents components) :
    (g.members components).Pairwise (· < ·) := by
  have hnodup : (g.members components).Nodup := by
    refine (List.perm_insertionSort _ _).nodup_iff.mpr ?_
    exact h.nodup_flatten.sublist (List.filter_sublist.flatten)
  have hsorted : (g.members components).Pairwise (· ≤ ·) :=
    List.pairwise_insertionSort (· ≤ ·) _
  exact (hsorted.and hnodup).imp fun ⟨hle, hne⟩ => Nat.lt_of_le_of_ne hle hne

end Dependencies

/-! ### Names -/

variable {formulas : List Formula}

/-- The name of formula `i`, if there is one. -/
def nameOf? (formulas : List Formula) (i : Nat) : Option String := formulas[i]?.map Formula.name

/-- The names of formulas that are picked by their numbers. -/
theorem map_name_filter_zipIdx (formulas : List Formula) (picked : Nat → Bool) :
    ((formulas.zipIdx.filter fun p => picked p.2).map fun p => p.1.name).map some
      = ((List.range formulas.length).filter picked).map (nameOf? formulas) := by
  have hname : ∀ p ∈ formulas.zipIdx.filter fun p => picked p.2,
      some p.1.name = nameOf? formulas p.2 := by
    intro p hp
    have := List.mem_zipIdx_iff_getElem?.mp (List.mem_filter.mp hp).1
    rw [nameOf?, this, Option.map_some]
  calc ((formulas.zipIdx.filter fun p => picked p.2).map fun p => p.1.name).map some
      = (formulas.zipIdx.filter fun p => picked p.2).map fun p => nameOf? formulas p.2 := by
        rw [List.map_map]
        exact List.map_congr_left hname
    _ = (((formulas.zipIdx.map Prod.snd).filter picked).map (nameOf? formulas)) := by
        rw [List.filter_map, List.map_map]
        rfl
    _ = ((List.range formulas.length).filter picked).map (nameOf? formulas) := by
        rw [List.zipIdx_map_snd, List.range_eq_range']

/-- Numbers in increasing order are told by which they are. -/
theorem eq_of_pairwise_lt {l m : List Nat} (hl : l.Pairwise (· < ·)) (hm : m.Pairwise (· < ·))
    (h : ∀ i, i ∈ l ↔ i ∈ m) : l = m := by
  have hperm : l.Perm m := (List.perm_ext_iff_of_nodup hl.nodup hm.nodup).mpr h
  exact hperm.eq_of_pairwise (fun _ _ _ _ hlt hgt => absurd hlt (Nat.lt_asymm hgt)) hl hm

theorem mem_filter_onCycle_iff {i : Nat} :
    i ∈ (List.range formulas.length).filter (dependencies formulas).onCycle ↔
      TransGen (DependsOn formulas) i i := by
  have hg := isProper_dependencies formulas
  rw [List.mem_filter, Dependencies.onCycle_iff hg, transGen_needs_iff, List.mem_range,
    and_iff_right_iff_imp]
  intro hi
  obtain ⟨j, -, hj⟩ := TransGen.tail'_iff.mp hi
  rw [← size_dependencies]
  exact hg.lt_size (needs_iff_dependsOn.mpr hj)

/-- What is reported, from the numbers of the formulas that depend on themselves. -/
theorem evaluationOrder_eq_cycle_iff_of_members (hgenerated : ∀ f ∈ formulas, f.IsGenerated)
    {members : List Nat} (hsorted : members.Pairwise (· < ·))
    (hmem : ∀ i, i ∈ members ↔ TransGen (DependsOn formulas) i i) {names : List String} :
    evaluationOrder formulas = .error (.cycle names) ↔
      names ≠ [] ∧ members.map (nameOf? formulas) = names.map some := by
  obtain ⟨comparisons, hcomparisons⟩ := exists_mapM_eq_ok fun f hf =>
    (hgenerated f hf).exists_isComparison
  have hmembers : (List.range formulas.length).filter (dependencies formulas).onCycle = members :=
    eq_of_pairwise_lt (List.pairwise_lt_range.filter _) hsorted fun i =>
      mem_filter_onCycle_iff.trans (hmem i).symm
  have hreported := map_name_filter_zipIdx formulas (dependencies formulas).onCycle
  rw [hmembers] at hreported
  -- Something is reported exactly where there is a circle.
  have hempty : (formulas.zipIdx.filter fun p =>
      (dependencies formulas).onCycle p.2).map (fun p => p.1.name) = [] ↔
        ¬ (dependencies formulas).isCyclic = true := by
    rw [isCyclic_dependencies_iff, not_exists, ← List.map_eq_nil_iff (f := some), hreported,
      List.map_eq_nil_iff, List.eq_nil_iff_forall_not_mem]
    exact forall_congr' fun i => not_congr (hmem i)
  rw [evaluationOrder_of_mapM hcomparisons, ← hreported,
    (Option.some_injective String).list_map.eq_iff]
  split
  · rename_i hcyclic
    rw [Except.error.injEq, EvalError.cycle.injEq]
    refine ⟨fun h => ⟨?_, h⟩, fun h => h.2⟩
    rintro rfl
    exact hempty.mp h hcyclic
  · rename_i hcyclic
    refine ⟨fun h => ?_, fun h => absurd (h.2.symm.trans (hempty.mpr hcyclic)) h.1⟩
    cases h

/-- **What is reported.** Where some of the formulas depend on themselves, through one or more
steps, their names are reported, in the order of the formulas and once for each; and they are the
formulas in the components that are circles. -/
theorem evaluationOrder_eq_cycle_iff (hgenerated : ∀ f ∈ formulas, f.IsGenerated) :
    (∀ names, evaluationOrder formulas = .error (.cycle names) ↔
      names ≠ [] ∧ ∃ members : List Nat, members.Pairwise (· < ·) ∧
        (∀ i, i ∈ members ↔ TransGen (DependsOn formulas) i i) ∧
        members.map (nameOf? formulas) = names.map some) ∧
    ∀ names components, (dependencies formulas).IsComponents components →
      (evaluationOrder formulas = .error (.cycle names) ↔
        names ≠ [] ∧
          ((dependencies formulas).members components).map (nameOf? formulas)
            = names.map some) := by
  have hg := isProper_dependencies formulas
  refine ⟨fun names => ⟨fun h => ?_, ?_⟩, fun names components hcomponents => ?_⟩
  · have hsorted := (List.pairwise_lt_range (n := formulas.length)).filter
      (dependencies formulas).onCycle
    have hreported := (evaluationOrder_eq_cycle_iff_of_members hgenerated hsorted
      fun i => mem_filter_onCycle_iff).mp h
    exact ⟨hreported.1, _, hsorted, fun i => mem_filter_onCycle_iff, hreported.2⟩
  · rintro ⟨hne, members, hsorted, hmem, hnames⟩
    exact (evaluationOrder_eq_cycle_iff_of_members hgenerated hsorted hmem).mpr ⟨hne, hnames⟩
  · refine evaluationOrder_eq_cycle_iff_of_members hgenerated
      (Dependencies.pairwise_members hcomponents) fun i => ?_
    rw [Dependencies.mem_members_iff hg hcomponents, transGen_needs_iff]

/-- Two formulas that refer to each other, one that refers to them, and one that refers to itself:
the third one is not in a circle. -/
theorem evaluationOrder_eq_cycle_of_two_circles :
    ∃ formulas : List Formula, formulas.map (fun f => (f.name, f.source))
        = [("a", "b"), ("b", "c"), ("c", "b"), ("d", "d")] ∧
      (dependencies formulas).IsComponents [[3], [2, 1], [0]] ∧
      evaluationOrder formulas = .error (.cycle ["b", "c", "d"]) := by
  have hb : parse .sole "b" = .ok ⟨[.reference "b"], [.reference "b"]⟩ :=
    parse_name (show Text.visible "b" = ['b'] by decide) rfl (by simp) (by decide)
  have hc : parse .sole "c" = .ok ⟨[.reference "c"], [.reference "c"]⟩ :=
    parse_name (show Text.visible "c" = ['c'] by decide) rfl (by simp) (by decide)
  have hd : parse .sole "d" = .ok ⟨[.reference "d"], [.reference "d"]⟩ :=
    parse_name (show Text.visible "d" = ['d'] by decide) rfl (by simp) (by decide)
  let formulas : List Formula :=
    [⟨"a", .sole, "b", [.reference "b"], [.reference "b"], none⟩,
      ⟨"b", .sole, "c", [.reference "c"], [.reference "c"], none⟩,
      ⟨"c", .sole, "b", [.reference "b"], [.reference "b"], none⟩,
      ⟨"d", .sole, "d", [.reference "d"], [.reference "d"], none⟩]
  have hgenerated : ∀ f ∈ formulas, f.IsGenerated := by
    simpa [formulas] using ⟨hb, hc, hb, hd⟩
  have hcomponents : (dependencies formulas).IsComponents [[3], [2, 1], [0]] := by
    refine ⟨by decide, ?_⟩
    simp only [Dependencies.reflTransGen_needs_iff (isProper_dependencies formulas)]
    decide
  refine ⟨formulas, rfl, hcomponents, ?_⟩
  exact ((evaluationOrder_eq_cycle_iff hgenerated).2 _ _ hcomponents).mpr ⟨by simp, by decide⟩

end Formulary
