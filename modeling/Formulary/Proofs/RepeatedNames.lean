import Formulary.Proofs.LeastOrder

/-!
# Formulas that share a name

A formula is meant to come after every other formula whose name it refers to. It does where names
differ. Where several formulas have one name, only the last of them is a dependency; those before
it are ordered as if nobody referred to them. Whether such a formula still comes before those that
refer to its name is decided by what is preferred: it does if it is preferred to them together with
everything that it depends on in turn, for then the search gives all of this a place first. But a
truth value with a name that a number has as well is put off until after the formulas that refer to
the name.

## Main definitions

* `RefersByName` — whether a formula refers to the name of another one
* `IsLastBearer` — whether no later formula has the name of a formula
* `Precedes` — whether one thing has its place in an order before another one

## Main results

* `Dependencies.Reached.mem_before` — what is preferred with all that it needs comes first
* `precedes_of_evaluationOrder` — what comes before a formula that refers to its name
* `not_forall_precedes` — a formula need not come after all those whose name it refers to
-/

namespace Formulary

open Relation

/-! ### What is preferred comes first -/

namespace Dependencies

variable {g : Dependencies} {κ : Type} [LinearOrder κ] {key : Nat → κ}
  {prefers : Nat → Nat → Bool} {s : Progress}

/-- A thing without a place needs something that is ready, through some number of steps, unless it
is ready itself. -/
theorem exists_ready_of_notMem_placed (hg : g.IsProper) (hacyclic : ∀ i, ¬ TransGen g.Needs i i)
    (hs : s.Sound g) {j : Nat} (hj : j < g.size) (hplaced : j ∉ s.placed) :
    ∃ k, ReflTransGen g.Needs j k ∧ k ∈ s.ready := by
  induction j using (wellFounded_of_acyclic hg.lt_size hacyclic).induction with
  | _ j ih =>
    by_cases hneeds : ∀ k, g.Needs j k → k ∈ s.placed
    · exact ⟨j, .refl, (hs.mem_ready j).mpr ⟨hj, hplaced, hneeds⟩⟩
    · push Not at hneeds
      obtain ⟨k, hk, hkplaced⟩ := hneeds
      obtain ⟨m, hm, hready⟩ := ih k hk (hg.lt_size hk) hkplaced
      exact ⟨m, .head hk hm, hready⟩

/-- When a thing gets the next place, what is preferred to it with all that it needs has one. -/
theorem mem_placed_of_first? (hg : g.IsProper) (hacyclic : ∀ i, ¬ TransGen g.Needs i i)
    (hkey : ∀ i j, prefers i j = true ↔ key i < key j) (hs : s.Sound g) {i j : Nat}
    (hnext : first? prefers s.ready = some i) (hj : j < g.size)
    (hlt : ∀ k, ReflTransGen g.Needs j k → key k < key i) : j ∈ s.placed := by
  by_contra hplaced
  obtain ⟨k, hk, hready⟩ := exists_ready_of_notMem_placed hg hacyclic hs hj hplaced
  exact absurd (key_le_of_first? hkey hnext k hready) (not_le.mpr (hlt k hk))

/-- **What is preferred comes first.** A thing has its place after everything that is preferred to
it with all that it needs. -/
theorem Reached.mem_before (hg : g.IsProper) (hacyclic : ∀ i, ¬ TransGen g.Needs i i)
    (hkey : ∀ i j, prefers i j = true ↔ key i < key j) (h : g.Reached prefers s)
    {before after : List Nat} {i : Nat} (heq : s.placed = before ++ i :: after) {j : Nat}
    (hj : j < g.size) (hlt : ∀ k, ReflTransGen g.Needs j k → key k < key i) : j ∈ before := by
  induction h generalizing after with
  | start => exact absurd heq (by simp [Dependencies.start])
  | @place s d h hnext ih =>
    have hplaced : s.placed ++ [d] = before ++ i :: after := heq
    rcases List.eq_nil_or_concat after with rfl | ⟨after, last, rfl⟩
    · obtain ⟨rfl, hd⟩ := List.append_inj' hplaced rfl
      obtain rfl : d = i := List.singleton_inj.mp hd
      exact mem_placed_of_first? hg hacyclic hkey (h.sound hg) hnext hj hlt
    · have hassoc : before ++ i :: after.concat last = (before ++ i :: after) ++ [last] := by simp
      rw [hassoc] at hplaced
      exact ih (List.append_inj' hplaced rfl).1

end Dependencies

/-! ### Names -/

/-- Whether formula `i` refers to the name of formula `j`, whether or not others have this name. -/
def RefersByName (formulas : List Formula) (i j : Nat) : Prop :=
  ∃ f g, formulas[i]? = some f ∧ formulas[j]? = some g ∧ g.name ∈ f.references

/-- Whether no formula after formula `j` has its name. -/
def IsLastBearer (formulas : List Formula) (j : Nat) : Prop :=
  ∀ g, formulas[j]? = some g → ∀ k h, j < k → formulas[k]? = some h → h.name ≠ g.name

/-- Whether `j` has its place in an order before `i`. -/
def Precedes (order : List Nat) (j i : Nat) : Prop := [j, i].Sublist order

instance (order : List Nat) (j i : Nat) : Decidable (Precedes order j i) :=
  inferInstanceAs (Decidable (List.Sublist _ _))

variable {formulas : List Formula}

/-- A formula depends on the last one that has a name it refers to. -/
theorem dependsOn_iff {i j : Nat} :
    DependsOn formulas i j ↔ RefersByName formulas i j ∧ IsLastBearer formulas j := by
  constructor
  · rintro ⟨f, g, hf, hg, hname, hlast⟩
    refine ⟨⟨f, g, hf, hg, hname⟩, fun g' hg' => ?_⟩
    obtain rfl := Option.some.inj (hg.symm.trans hg')
    exact hlast
  · rintro ⟨⟨f, g, hf, hg, hname⟩, hlast⟩
    exact ⟨f, g, hf, hg, hname, hlast g hg⟩

/-- Where names differ every formula is the last one that has its name. -/
theorem isLastBearer_of_nodup (h : (formulas.map Formula.name).Nodup) (j : Nat) :
    IsLastBearer formulas j := by
  intro g hg k h' hk hh' hsame
  have hget : (formulas.map Formula.name)[j]? = (formulas.map Formula.name)[k]? := by
    rw [List.getElem?_map, List.getElem?_map, hg, hh', Option.map_some, Option.map_some, hsame]
  have hlt : j < (formulas.map Formula.name).length := by
    rw [List.length_map]
    exact (List.getElem?_eq_some_iff.mp hg).1
  exact Nat.ne_of_lt hk ((List.getElem?_inj hlt h).mp hget)

theorem lt_length_of_refersByName {i j : Nat} (h : RefersByName formulas i j) :
    i < formulas.length ∧ j < formulas.length := by
  obtain ⟨f, g, hf, hg, -⟩ := h
  exact ⟨(List.getElem?_eq_some_iff.mp hf).1, (List.getElem?_eq_some_iff.mp hg).1⟩

/-- What stands before a place of an order precedes it. -/
theorem precedes_of_mem_before {order : List Nat} (hnodup : order.Nodup) {i j : Nat}
    (hi : i ∈ order)
    (h : ∀ before after, order = before ++ i :: after → j ∈ before) :
    j ≠ i ∧ Precedes order j i := by
  obtain ⟨before, after, rfl⟩ := List.append_of_mem hi
  have hj := h before after rfl
  refine ⟨?_, ?_⟩
  · rintro rfl
    exact List.disjoint_of_nodup_append hnodup hj List.mem_cons_self
  · exact (List.singleton_sublist.mpr hj).append (List.singleton_sublist.mpr List.mem_cons_self)

/-! ### Orders -/

variable {order : List Nat}

theorem IsOrder.mem_order (horder : IsOrder formulas order) {i : Nat} (hi : i < formulas.length) :
    i ∈ order :=
  horder.perm.mem_iff.mpr (List.mem_range.mpr hi)

theorem IsOrder.nodup (horder : IsOrder formulas order) : order.Nodup :=
  horder.perm.nodup_iff.mpr List.nodup_range

/-- A formula comes after those that it depends on. -/
theorem IsOrder.precedes (horder : IsOrder formulas order) {i j : Nat}
    (h : DependsOn formulas i j) : j ≠ i ∧ Precedes order j i := by
  have hi := (lt_length_of_refersByName (dependsOn_iff.mp h).1).1
  exact precedes_of_mem_before horder.nodup (horder.mem_order hi)
    fun before after heq => horder.after heq j h

/-- A formula comes after those that are preferred to it with all that they depend on. -/
theorem precedes_of_preferred (h : evaluationOrder formulas = .ok order) {i j : Nat}
    (hi : i < formulas.length) (hj : j < formulas.length)
    (hlt : ∀ k, ReflTransGen (DependsOn formulas) j k →
      preference formulas k < preference formulas i) : Precedes order j i := by
  have hg := isProper_dependencies formulas
  have horder := isOrder_of_evaluationOrder h
  obtain ⟨comparisons, hcomparisons, hacyclic, rfl⟩ := exists_of_evaluationOrder h
  have hstart : (dependencies formulas).Reached (comesBefore comparisons) _ := .start
  have hreached := hstart.advance (dependencies formulas).size
  refine (precedes_of_mem_before horder.nodup (horder.mem_order hi) fun before after heq => ?_).2
  refine hreached.mem_before hg hacyclic (comesBefore_iff hcomparisons) heq ?_ fun k hk => ?_
  · rw [size_dependencies]
    exact hj
  · exact hlt k (ReflTransGen.mono (fun _ _ => needs_iff_dependsOn.mp) j k hk)

/-- **What comes before a formula that refers to its name.** The last formula with the name does; so
where names differ, every formula does whose name is referred to. An earlier formula with the name
does if it is preferred, with all that it depends on, to the formula that refers to it. -/
theorem precedes_of_evaluationOrder (h : evaluationOrder formulas = .ok order) :
    (∀ i j, RefersByName formulas i j → IsLastBearer formulas j → j ≠ i ∧ Precedes order j i) ∧
    ((formulas.map Formula.name).Nodup → ∀ i j, RefersByName formulas i j → Precedes order j i) ∧
    ∀ i j, RefersByName formulas i j →
      (∀ k, ReflTransGen (DependsOn formulas) j k →
        preference formulas k < preference formulas i) → Precedes order j i := by
  have hlast : ∀ i j, RefersByName formulas i j → IsLastBearer formulas j →
      j ≠ i ∧ Precedes order j i := fun i j hrefers hlast =>
    (isOrder_of_evaluationOrder h).precedes (dependsOn_iff.mpr ⟨hrefers, hlast⟩)
  refine ⟨hlast, fun hnodup i j hrefers => ?_, fun i j hrefers hlt => ?_⟩
  · exact (hlast i j hrefers (isLastBearer_of_nodup hnodup j)).2
  · obtain ⟨hi, hj⟩ := lt_length_of_refersByName hrefers
    exact precedes_of_preferred h hi hj hlt

/-- Two formulas have the name `x`, and `y` refers to it. The last one comes before `y`, and the
earlier one, which waits for `z`, comes after it. -/
theorem precedes_of_evaluationOrder_two_bearers :
    ∃ formulas : List Formula, formulas.map (fun f => (f.name, f.source))
        = [("y", "x"), ("x", "z"), ("x", "a"), ("z", "a")] ∧
      evaluationOrder formulas = .ok [2, 0, 3, 1] ∧ RefersByName formulas 0 2 ∧
      IsLastBearer formulas 2 ∧ Precedes [2, 0, 3, 1] 2 0 := by
  let formula (name reference : String) : Formula :=
    ⟨name, .sole, reference, [.reference reference], [.reference reference], none⟩
  let formulas := [formula "y" "x", formula "x" "z", formula "x" "a", formula "z" "a"]
  have horder : evaluationOrder formulas = .ok [2, 0, 3, 1] := rfl
  have hrefers : RefersByName formulas 0 2 := ⟨_, _, rfl, rfl, List.mem_singleton_self _⟩
  have hlast : IsLastBearer formulas 2 := by
    rintro g hg (_ | _ | _ | _ | k) h hk hh
    · cases hk
    · omega
    · omega
    · cases hg
      cases hh
      decide
    · cases hh
  exact ⟨formulas, rfl, horder, hrefers, hlast,
    ((precedes_of_evaluationOrder horder).1 0 2 hrefers hlast).2⟩

/-- **Not every formula waits for all that bear a name.** A truth value that shares its name with a
later number is put off until after the formula that refers to the name. -/
theorem not_forall_precedes : ¬ ∀ formulas order, (∀ f ∈ formulas, f.IsGenerated) →
    evaluationOrder formulas = .ok order →
      ∀ i j, i ≠ j → RefersByName formulas i j → Precedes order j i := by
  intro h
  let a : Name := ⟨'a', [], rfl, by simp, by decide⟩
  let b : Name := ⟨'b', [], rfl, by simp, by decide⟩
  have hgreater : Lexes true (a.text ++ (Symbol.greater.text.toList ++ (b.text ++ [])))
      [.reference "a", .operator (.binary .greater), .reference "b"] :=
    .cons (.reference a rfl) (.cons (.binary rfl (by rintro ⟨⟩) (by rintro _ ⟨⟩; rfl))
      (.cons (.reference b rfl) (.nil _)))
  have htruth : parse .sole "a>b" = .ok ⟨_, _⟩ :=
    parse_of_lexes hgreater (.cons rfl (.cons rfl (.cons rfl .nil))) rfl
  have hnumber : parse .sole "a" = .ok ⟨[.reference "a"], [.reference "a"]⟩ :=
    parse_name (show Text.visible "a" = ['a'] by decide) rfl (by simp) (by decide)
  have hreference : parse .sole "x" = .ok ⟨[.reference "x"], [.reference "x"]⟩ :=
    parse_name (show Text.visible "x" = ['x'] by decide) rfl (by simp) (by decide)
  let formulas : List Formula :=
    [⟨"x", .sole, "a>b", [.reference "a", .operator (.binary .greater), .reference "b"],
        [.reference "a", .reference "b", .operator (.binary .greater)], none⟩,
      ⟨"x", .sole, "a", [.reference "a"], [.reference "a"], none⟩,
      ⟨"y", .sole, "x", [.reference "x"], [.reference "x"], none⟩]
  have hgenerated : ∀ f ∈ formulas, f.IsGenerated := by
    simpa [formulas] using ⟨htruth, hnumber, hreference⟩
  have hrefers : RefersByName formulas 2 0 := ⟨_, _, rfl, rfl, List.mem_singleton_self _⟩
  exact absurd (h formulas [1, 2, 0] hgenerated rfl 2 0 (by decide) hrefers) (by decide)

end Formulary
